import FitProjects.IZG.Fragments
import FitProjects.Lib.StableSort

/-! # The fragments of a pixel in the order of their depths

`renderStudentScene` copies the list of each pixel and sorts the copy by insertion. The pointer `t`
and the index `j` of the sort move together, so that `t - 1` is the element at index `j`
(`shift_spec`). -/

namespace StudentRenderer

variable {C D V : Type}

section
variable [LinearOrder D]

/-- The `while` loop of the sort, with `j + 1` as the number that goes down. -/
def shift (vec : FragVec (Frag C D) V) (tmp : Frag C D) : V → Int → Nat → Option (V × Nat)
  | v, _, 0 => some (v, 0)
  | v, t, j + 1 => do
    let f ← vec.getPtr v (t - 1)
    if tmp.depth < f.depth then
      let f ← vec.getPtr v j
      let v ← vec.set v (j + 1) f
      shift vec tmp v j j
    else some (v, j + 1)

/-- The body of the `for` loop of the sort. -/
def insertFragment (vec : FragVec (Frag C D) V) (v : V) (i : Nat) : Option V := do
  let tmp ← vec.getPtr v i
  let (v, j) ← shift vec tmp v i i
  vec.set v j tmp

/-- The insertion sort of `renderStudentScene`. -/
def insertSort (vec : FragVec (Frag C D) V) (v : V) : Option V :=
  (List.range' 1 ((vec.size v).toNat - 1)).foldlM (insertFragment vec) v

end

variable {vec : FragVec (Frag C D) V} {log : List (Stored C D)} {r : Renderer V} {p : Point Int}
  {v : V} {a c l s : List (Frag C D)} {f tmp x : Frag C D} {e : Stored C D}

/-! ### The sort -/

section
variable [LinearOrder D]

/-- The elements that are greater than `tmp` move one place up. -/
theorem shift_spec (h : vec.contents v = a ++ x :: c) (tmp : Frag C D) :
    ∃ v' a₁ a₂ x', shift vec tmp v a.length a.length = some (v', a₁.length) ∧ a = a₁ ++ a₂ ∧
      vec.contents v' = a₁ ++ x' :: (a₂ ++ c) ∧ (∀ y ∈ a₂, tmp.depth < y.depth) ∧
      ∀ y ∈ a₁.getLast?, y.depth ≤ tmp.depth := by
  induction hn : a.length generalizing v a x c with
  | zero =>
    obtain rfl := List.length_eq_zero_iff.mp hn
    exact ⟨v, [], [], x, rfl, rfl, h, List.forall_mem_nil _, by simp⟩
  | succ n ih =>
    rcases a.eq_nil_or_concat with rfl | ⟨a, y, rfl⟩
    · cases hn
    rw [List.concat_eq_append] at *
    obtain rfl : a.length = n := by simpa using hn
    have hread : vec.getPtr v a.length = some y :=
      getPtr_length (h.trans (List.append_assoc a [y] (x :: c)))
    have hindex : (((a.length + 1 : Nat) : Int) - 1) = a.length := by omega
    rw [shift, hindex, hread]
    by_cases hlt : tmp.depth < y.depth
    · obtain ⟨v₁, hset, hv₁⟩ := set_length h y
      rw [hn, List.append_assoc] at *
      obtain ⟨v', a₁, a₂, x', hshift, ha, hv', ha₂, ha₁⟩ := ih hv₁ rfl
      refine ⟨v', a₁, a₂ ++ [y], x', ?_, by rw [ha, List.append_assoc], ?_, ?_, ha₁⟩
      · have hset' : vec.set v ((a.length : Int) + 1) y = some v₁ := by
          rw [← hset, hn]
          rfl
        simp [hlt, hset', hshift]
      · rw [hv', List.append_assoc]
        rfl
      · intro z hz
        rcases List.mem_append.mp hz with hz | hz
        · exact ha₂ z hz
        · exact List.mem_singleton.mp hz ▸ hlt
    · refine ⟨v, a ++ [y], [], x, ?_, (List.append_nil _).symm, h, List.forall_mem_nil _, ?_⟩
      · simp [hlt]
      · simpa using hlt

/-- The element at index `i` comes behind the ones that are not greater. -/
theorem insertFragment_spec (h : vec.contents v = s ++ x :: c)
    (hs : StableSorted Frag.depth l s) : ∃ v' s', insertFragment vec v s.length = some v' ∧
      vec.contents v' = s' ++ c ∧ StableSorted Frag.depth (l ++ [x]) s' := by
  obtain ⟨v₁, a₁, a₂, x', hshift, rfl, hv₁, ha₂, ha₁⟩ := shift_spec h x
  obtain ⟨v', hset, hv'⟩ := set_length hv₁ x
  refine ⟨v', a₁ ++ x :: a₂, ?_, ?_, hs.insert (hs.le_of_getLast? ha₁) ha₂⟩
  · simp only [insertFragment, getPtr_length h, Option.bind_eq_bind, Option.bind_some, hshift]
    exact hset
  · rw [hv', List.append_assoc]
    rfl

/-- The sort is stable, and stays inside the vector. -/
theorem insertSort_spec (vec : FragVec (Frag C D) V) (v : V) : ∃ v', insertSort vec v = some v' ∧
    StableSorted Frag.depth (vec.contents v) (vec.contents v') := by
  have hloop : ∀ c l s v, vec.contents v = s ++ c → StableSorted Frag.depth l s →
      ∃ v', (List.range' s.length c.length).foldlM (insertFragment vec) v = some v' ∧
        StableSorted Frag.depth (l ++ c) (vec.contents v') := by
    intro c
    induction c with
    | nil =>
      intro l s v h hs
      rw [List.append_nil] at h ⊢
      exact ⟨v, rfl, h ▸ hs⟩
    | cons x c ih =>
      intro l s v h hs
      obtain ⟨v₁, s₁, hinsert, hv₁, hs₁⟩ := insertFragment_spec h hs
      obtain ⟨v', hv', hsorted⟩ := ih (l ++ [x]) s₁ v₁ hv₁ hs₁
      refine ⟨v', ?_, by rwa [List.append_assoc] at hsorted⟩
      have hlength : s₁.length = s.length + 1 := by
        rw [hs₁.perm.length_eq, List.length_append, ← hs.perm.length_eq]
        rfl
      rw [List.length_cons, List.range'_succ, List.foldlM_cons, hinsert, ← hlength]
      exact hv'
  rw [insertSort, vec.size_eq, Int.toNat_natCast]
  cases h : vec.contents v with
  | nil => exact ⟨v, rfl, by rw [h]; exact .nil⟩
  | cons x c =>
    have hone : StableSorted Frag.depth [x] [x] :=
      StableSorted.nil.insert (a := []) (List.forall_mem_nil _) (List.forall_mem_nil _)
    exact hloop c [x] [x] v h hone

end

/-! ### The list of a pixel -/

/-- What has been stored for a pixel, the newest first. -/
def ofPixel (log : List (Stored C D)) (p : Point Int) : List (C × D) :=
  ((log.filter (·.pixel = p)).map fun e => (e.color, e.depth)).reverse

/-- A fragment without its index. -/
def Frag.value (f : Frag C D) : C × D := (f.color, f.depth)

/-- What the fragments at the indices of a pixel are. -/
theorem ofPixel_take (hn : n ≤ log.length) : ofPixel (log.take n) p =
    (indices log p n).filterMap fun k => log[k]?.map fun e => (e.color, e.depth) := by
  induction n with
  | zero => rfl
  | succ n ih =>
    obtain ⟨e, hget⟩ : ∃ e, log[n]? = some e := ⟨_, List.getElem?_eq_getElem hn⟩
    rw [List.take_add_one, hget, ofPixel, List.filter_append, List.map_append, List.reverse_append,
      indices, hget, Option.map_some]
    by_cases hp : e.pixel = p
    · rw [if_pos (congrArg some hp), List.filterMap_cons, hget, ← ih (Nat.le_of_succ_le hn)]
      simp [hp, ofPixel]
    · rw [if_neg (by simpa using hp), ← ih (Nat.le_of_succ_le hn)]
      simp [hp, ofPixel]

/-- The fragment that a list goes on with. -/
theorem Lists.getPtr_eq {k : Nat} (h : Lists vec log r) (he : log[k]? = some e) :
    vec.getPtr r.frag k = some ⟨e.color, e.depth, newest log e.pixel k⟩ := by
  rw [vec.getPtr_eq, if_pos (Int.natCast_nonneg k), Int.toNat_natCast, h.frags k e he]

/-- The list of a pixel from any of its fragments on. -/
theorem Lists.path_eq (h : Lists vec log r) (hfuel : n ≤ fuel) :
    path vec r.frag fuel (newest log p n) = some ((indices log p n).map Int.ofNat) := by
  induction n using Nat.strongRecOn generalizing fuel with
  | ind n ih =>
    rcases indices_cases log p n with ⟨hnil, hnewest⟩ | ⟨k, e, hk, he, rfl, hcons, hnewest⟩
    · rw [hnil, hnewest]
      cases fuel with
      | zero => rfl
      | succ fuel => rfl
    · obtain ⟨fuel, rfl⟩ : ∃ m, fuel = m + 1 := ⟨fuel - 1, by omega⟩
      rw [hcons, hnewest, path, if_neg (by omega), h.getPtr_eq he]
      simp only [Option.bind_eq_bind, Option.bind_some, ih k hk (show k ≤ fuel by omega)]
      rfl

/-- The copy of the list that goes on behind `f`. -/
theorem Lists.copyLoop_eq (h : Lists vec log r) (hn : n ≤ log.length)
    (hf : f.next = newest log p n) (copy : V) :
    ∃ copy', (∀ fuel, n < fuel → copyLoop vec r.frag fuel f copy = some copy') ∧
      (vec.contents copy').map Frag.value =
        (vec.contents copy).map Frag.value ++ ofPixel (log.take n) p := by
  induction n using Nat.strongRecOn generalizing f copy with
  | ind n ih =>
    rw [ofPixel_take hn]
    rcases indices_cases log p n with ⟨hnil, hnewest⟩ | ⟨k, e, hk, he, rfl, hcons, hnewest⟩
    · refine ⟨copy, fun fuel hfuel => ?_, by rw [hnil]; simp⟩
      obtain ⟨fuel, rfl⟩ : ∃ m, fuel = m + 1 := ⟨fuel - 1, by omega⟩
      rw [copyLoop, if_neg (by rw [hf, hnewest]; simp)]
    · obtain ⟨copy', hloop, hcontents⟩ := ih k hk (by omega)
        (f := ⟨e.color, e.depth, newest log e.pixel k⟩) rfl
        (vec.pushBack copy ⟨e.color, e.depth, newest log e.pixel k⟩).1
      refine ⟨copy', fun fuel hfuel => ?_, ?_⟩
      · obtain ⟨fuel, rfl⟩ : ∃ m, fuel = m + 1 := ⟨fuel - 1, by omega⟩
        rw [copyLoop, if_pos (by rw [hf, hnewest]; omega), hf, hnewest, h.getPtr_eq he]
        exact hloop fuel (by omega)
      · rw [hcontents, vec.contents_pushBack, ofPixel_take (by omega), hcons]
        simp [he, Frag.value]

section
variable [LinearOrder D]

/-- What holds of a pixel: following its list from its head reaches -1 and visits the indices of the
fragments that have been stored for it, each once and the newest first; and the list is copied and
the copy sorted. -/
structure PixelList (vec : FragVec (Frag C D) V) (log : List (Stored C D)) (r : Renderer V)
    (p : Point Int) (order : Int) : Prop where
  head : readHead r.head_point (p.y * r.frame_w + p.x) = some order
  path : ∀ fuel, log.length ≤ fuel →
    path vec r.frag fuel order = some ((indices log p log.length).map Int.ofNat)
  once : (indices log p log.length).Pairwise (· > ·)
  mem : ∀ k, k ∈ indices log p log.length ↔ ∃ e, log[k]? = some e ∧ e.pixel = p
  sorted : order = -1 ∧ ofPixel log p = [] ∨ ∃ copy copy',
    (∀ fuel, log.length ≤ fuel → copyList vec r.frag fuel order = some copy) ∧
    (vec.contents copy).map Frag.value = ofPixel log p ∧
    insertSort vec copy = some copy' ∧
    StableSorted Frag.depth (vec.contents copy) (vec.contents copy')

theorem Lists.pixelList (h : Lists vec log r) (hp : InWindow r.frame_w r.frame_h p) :
    PixelList vec log r p (newest log p log.length) where
  head := h.heads p hp
  path := fun fuel hfuel => h.path_eq hfuel
  once := indices_pairwise log p log.length
  mem := fun k => by
    rw [mem_indices, Option.map_eq_some_iff]
    refine ⟨fun hk => hk.2, fun hk => ⟨?_, hk⟩⟩
    obtain ⟨e, he, -⟩ := hk
    exact (List.getElem?_eq_some_iff.mp he).1
  sorted := by
    have hall : ofPixel (log.take log.length) p = _ := ofPixel_take (Nat.le_refl log.length)
    rw [List.take_length] at hall
    obtain ⟨hnil, hnewest⟩ | ⟨k, e, hk, he, rfl, hcons, hnewest⟩ :=
      indices_cases log p log.length
    · exact .inl ⟨hnewest, by rw [hall, hnil]; rfl⟩
    · right
      obtain ⟨copy, hloop, hcontents⟩ := h.copyLoop_eq (Nat.le_of_lt hk)
        (f := ⟨e.color, e.depth, newest log e.pixel k⟩) rfl
        (vec.pushBack vec.createEmpty ⟨e.color, e.depth, newest log e.pixel k⟩).1
      obtain ⟨copy', hsort, hsorted⟩ := insertSort_spec vec copy
      refine ⟨copy, copy', fun fuel hfuel => ?_, ?_, hsort, hsorted⟩
      · rw [copyList, hnewest, h.getPtr_eq he]
        exact hloop fuel (Nat.lt_of_lt_of_le hk hfuel)
      · rw [hcontents, vec.contents_pushBack, vec.contents_createEmpty, hall, hcons,
          ofPixel_take (Nat.le_of_lt hk)]
        simp [he, Frag.value]

/-- After the buffers have been cleared and any calls of `studrenDrawTriangle`, each pixel has the
list of the fragments that have been stored for it. -/
theorem fragment_lists (vec : FragVec (Frag C D) V) (depthBuffer : Int → Int → D) (r : Renderer V)
    (calls : List (DrawCall C D)) : ∃ r',
      calls.foldlM (drawFragments vec depthBuffer) (clearBuffers vec r) = some r' ∧
      ∀ p, InWindow r.frame_w r.frame_h p →
        ∃ order,
          PixelList vec (calls.flatMap (stored r.frame_w r.frame_h depthBuffer)) r' p order := by
  obtain ⟨r', hr', hw, hh, h⟩ := (Lists.clear vec r).draw depthBuffer calls
  rw [List.nil_append] at h
  refine ⟨r', hr', fun p hp => ⟨_, h.pixelList ?_⟩⟩
  rw [hw, hh]
  exact hp

/-- Two triangles in a window of four pixels, with lists as vectors. -/
theorem fragment_lists_two : ∃ r',
    [DrawCall.mk ⟨0, 0⟩ ⟨2, 0⟩ ⟨0, 2⟩ fun _ => ('a', 3),
      .mk ⟨0, 0⟩ ⟨2, 0⟩ ⟨0, 2⟩ fun _ => ('b', 5)].foldlM
      (drawFragments FragVec.list fun _ _ => 9)
      (clearBuffers FragVec.list ⟨2, 2, [0, 0, 0, 0], [], rfl⟩) = some r' ∧
    ∀ p, InWindow 2 2 p → ∃ order, PixelList FragVec.list
      ([DrawCall.mk ⟨0, 0⟩ ⟨2, 0⟩ ⟨0, 2⟩ fun _ => ('a', 3),
        .mk ⟨0, 0⟩ ⟨2, 0⟩ ⟨0, 2⟩ fun _ => ('b', 5)].flatMap (stored 2 2 fun _ _ => 9)) r' p order :=
  fragment_lists FragVec.list (fun _ _ => (9 : Nat)) ⟨2, 2, [0, 0, 0, 0], [], rfl⟩ _

end

end StudentRenderer
