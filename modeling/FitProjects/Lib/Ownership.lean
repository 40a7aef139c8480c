import FitProjects.Lib.Heap
import Mathlib.Algebra.Order.Group.Multiset

/-! # Owned blocks

`Owns h₀ h cells` says that the heap `h` consists of the heap `h₀` and of the cells `cells`, which lie
at addresses that are not live in `h₀`. Since the owned cells form a multiset, a cell that a program
touches is brought to the front by an equation between sums, and each operation of the heap changes
the cell at the front. Whoever owns no cells has given back all that was allocated. -/

namespace Heap

variable {α : Type u} {h₀ h : Heap α} {cells : Multiset (Addr × α)} {a : Addr} {v w : α}

structure Owns (h₀ h : Heap α) (cells : Multiset (Addr × α)) : Prop where
  nodup : (cells.map Prod.fst).Nodup
  fresh : ∀ c ∈ cells, h₀.get? c.1 = none
  get : ∀ c ∈ cells, h.get? c.1 = some c.2
  frame : ∀ a, a ∉ cells.map Prod.fst → h.get? a = h₀.get? a

namespace Owns

theorem refl (h : Heap α) : Owns h h 0 where
  nodup := by simp
  fresh := by simp
  get := by simp
  frame _ _ := rfl

theorem of_eq {m : Multiset (Addr × α)} (hown : Owns h₀ h cells) (heq : cells = m) :
    Owns h₀ h m :=
  heq ▸ hown

/-- Without owned cells the heap is the one from before. -/
theorem get?_eq (hown : Owns h₀ h 0) (a : Addr) : h.get? a = h₀.get? a :=
  hown.frame a (by simp)

theorem get?_head (hown : Owns h₀ h ((a, v) ::ₘ cells)) : h.get? a = some v :=
  hown.get _ (Multiset.mem_cons_self _ _)

theorem notMem_tail (hown : Owns h₀ h ((a, v) ::ₘ cells)) : a ∉ cells.map Prod.fst := by
  have hnodup := hown.nodup
  rw [Multiset.map_cons, Multiset.nodup_cons] at hnodup
  exact hnodup.1

theorem ne_of_mem_tail (hown : Owns h₀ h ((a, v) ::ₘ cells)) {c : Addr × α} (hc : c ∈ cells) :
    c.1 ≠ a :=
  fun hca => hown.notMem_tail (Multiset.mem_map.mpr ⟨c, hc, hca⟩)

/-- `malloc` returned a block that is not live. -/
theorem malloc (hown : Owns h₀ h cells) (ha : h.get? a = none) (v : α) :
    Owns h₀ (h.insert a v) ((a, v) ::ₘ cells) := by
  have hmem : a ∉ cells.map Prod.fst := by
    intro hmem
    obtain ⟨c, hc, rfl⟩ := Multiset.mem_map.mp hmem
    rw [hown.get c hc] at ha
    cases ha
  refine ⟨?_, ?_, ?_, ?_⟩
  · rw [Multiset.map_cons, Multiset.nodup_cons]
    exact ⟨hmem, hown.nodup⟩
  · intro c hc
    rcases Multiset.mem_cons.mp hc with rfl | hc
    · exact (hown.frame a hmem).symm.trans ha
    · exact hown.fresh c hc
  · intro c hc
    rcases Multiset.mem_cons.mp hc with rfl | hc
    · exact get?_insert_self
    · rw [get?_insert_of_ne fun hca => hmem (Multiset.mem_map.mpr ⟨c, hc, hca⟩)]
      exact hown.get c hc
  · intro b hb
    rw [Multiset.map_cons, Multiset.mem_cons, not_or] at hb
    rw [get?_insert_of_ne hb.1]
    exact hown.frame b hb.2

theorem write (hown : Owns h₀ h ((a, v) ::ₘ cells)) (w : α) :
    Owns h₀ (h.insert a w) ((a, w) ::ₘ cells) := by
  refine ⟨?_, ?_, ?_, ?_⟩
  · have hnodup := hown.nodup
    rw [Multiset.map_cons] at hnodup ⊢
    exact hnodup
  · intro c hc
    rcases Multiset.mem_cons.mp hc with rfl | hc
    · exact hown.fresh (a, v) (Multiset.mem_cons_self _ _)
    · exact hown.fresh c (Multiset.mem_cons_of_mem hc)
  · intro c hc
    rcases Multiset.mem_cons.mp hc with rfl | hc
    · exact get?_insert_self
    · rw [get?_insert_of_ne (hown.ne_of_mem_tail hc)]
      exact hown.get c (Multiset.mem_cons_of_mem hc)
  · intro b hb
    rw [Multiset.map_cons, Multiset.mem_cons, not_or] at hb
    rw [get?_insert_of_ne hb.1]
    refine hown.frame b ?_
    rw [Multiset.map_cons, Multiset.mem_cons, not_or]
    exact hb

theorem erase (hown : Owns h₀ h ((a, v) ::ₘ cells)) : Owns h₀ (h.erase a) cells := by
  refine ⟨?_, ?_, ?_, ?_⟩
  · have hnodup := hown.nodup
    rw [Multiset.map_cons, Multiset.nodup_cons] at hnodup
    exact hnodup.2
  · exact fun c hc => hown.fresh c (Multiset.mem_cons_of_mem hc)
  · intro c hc
    rw [get?_erase_of_ne (hown.ne_of_mem_tail hc)]
    exact hown.get c (Multiset.mem_cons_of_mem hc)
  · intro b hb
    by_cases hba : b = a
    · rw [hba, get?_erase_self]
      exact (hown.fresh (a, v) (Multiset.mem_cons_self _ _)).symm
    · rw [get?_erase_of_ne hba]
      refine hown.frame b ?_
      rw [Multiset.map_cons, Multiset.mem_cons, not_or]
      exact ⟨hba, hb⟩

/-- `free` of an owned block. -/
theorem free (hown : Owns h₀ h ((a, v) ::ₘ cells)) :
    h.free (some a) = some (h.erase a) ∧ Owns h₀ (h.erase a) cells := by
  refine ⟨?_, hown.erase⟩
  rw [free_some, hown.get?_head]
  rfl

/-- The owned cells are no more than the cells of the heap. -/
theorem card_le (hown : Owns h₀ h cells) : cells.card ≤ h.cells.length := by
  obtain ⟨l, rfl⟩ := Quot.exists_rep cells
  have hlive := length_le_of_live (l := l.map Prod.fst) (h := h) hown.nodup fun a ha => by
    obtain ⟨c, hc, rfl⟩ := List.mem_map.mp ha
    rw [hown.get c hc]
    rfl
  rwa [List.length_map] at hlive

end Owns

end Heap
