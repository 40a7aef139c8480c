import FitProjects.IAL.DListCorrect
import FitProjects.IAL.SListCorrect

/-! # The two list modules agree

On the calls that both have, the singly and the doubly linked list simulate the same abstract
list. -/

namespace ListCall

theorem map_isSome_eq (calls : List (ListCall (SList.Malloc × DList.Malloc)))
    (hmalloc : ∀ c ∈ calls, ∀ m, c.malloc? = some m → m.1.isSome = m.2.isSome) :
    (calls.map (·.map Prod.fst)).map (·.map Option.isSome) =
      (calls.map (·.map Prod.snd)).map (·.map Option.isSome) := by
  simp only [List.map_map]
  refine List.map_congr_left fun c hc => ?_
  have hm := hmalloc c hc
  cases c <;> simp_all [ListCall.map, ListCall.malloc?]

/-- Both modules start from their initialised lists and run the same shared calls, each `malloc`
succeeding in both or in none: the replies, with the error state after every call, are the same,
and so are the sequence of values, the place of the cursor and the error state in the end. -/
theorem observationally_equivalent (s₀ : SList.State) (t₀ : DList.State) (herr : s₀.err = t₀.err)
    (calls : List (ListCall (SList.Malloc × DList.Malloc))) (hshared : ∀ c ∈ calls, c.Shared)
    (hmalloc : ∀ c ∈ calls, ∀ m, c.malloc? = some m → m.1.isSome = m.2.isSome)
    (hs : SList.module.allocatesAll s₀.initList (calls.map (·.map Prod.fst)))
    (ht : DList.module.allocatesAll t₀.initList (calls.map (·.map Prod.snd))) :
    ∃ s t rs l, SList.module.run s₀.initList (calls.map (·.map Prod.fst)) = some (s, rs) ∧
      DList.module.run t₀.initList (calls.map (·.map Prod.snd)) = some (t, rs) ∧
      SList.Simulates s l ∧ DList.Simulates t l := by
  have hsinit : SList.Simulates s₀.initList ⟨.inactive [], s₀.err⟩ := ⟨_, .initList s₀, rfl⟩
  have htinit : DList.Simulates t₀.initList ⟨.inactive [], s₀.err⟩ :=
    ⟨_, .initList t₀, by rw [herr]; rfl⟩
  have hshared' : ∀ c ∈ calls.map (·.map Prod.fst), c.Shared := by
    intro c hc
    obtain ⟨c, hmem, rfl⟩ := List.mem_map.mp hc
    exact shared_map _ (hshared c hmem)
  obtain ⟨s, hsrun, hssim⟩ := ListModule.run_of_simulates SList.Simulates.call hsinit hshared' hs
  obtain ⟨t, htrun, htsim⟩ := ListModule.run_of_simulates (P := fun _ => True)
    (fun h _ => DList.Simulates.call h) htinit (by simp) ht
  rw [map_isSome_eq calls hmalloc] at hsrun hssim
  exact ⟨s, t, _, _, hsrun, htrun, hssim, htsim⟩

/-- Shared calls that insert, delete and read on both sides of the cursor. -/
def sharedCalls : List (ListCall (SList.Malloc × DList.Malloc)) :=
  [.insertFirst 1 (some (10, ⟨0, none⟩), some (7, ⟨0, none, none⟩)), .first,
    .postInsert 2 (some (20, ⟨0, none⟩), some (8, ⟨0, none, none⟩)), .succ, .copy, .deleteFirst,
    .active, .disposeList, .copyFirst]

theorem observationally_equivalent_sharedCalls :
    ∃ s t rs l, SList.module.run (SList.State.initList ⟨.empty, none, none, ⟨false, 0⟩⟩)
        (sharedCalls.map (·.map Prod.fst)) = some (s, rs) ∧
      DList.module.run DList.emptyState.initList (sharedCalls.map (·.map Prod.snd)) = some (t, rs) ∧
      SList.Simulates s l ∧ DList.Simulates t l :=
  observationally_equivalent _ _ rfl sharedCalls (by simp [sharedCalls, Shared])
    (by simp [sharedCalls, malloc?]) (by decide) (by decide)

end ListCall
