import FitProjects.IZG.Triangle

/-! # Fragments of pixels

The fragments that `studrenDrawTriangle` stores instead of pixels, to be blended in the order of
their depths later. All pixels share one vector; `head_point` has the index of the newest fragment
of a pixel, and each fragment the index of the one before it (`Lists`). Colours and depths are what
the interpolation gives; a stored depth is below the one in the buffer, so it can be compared. -/

namespace StudentRenderer

/-- `S_Frag` -/
structure Frag (C D : Type) where
  color : C
  depth : D
  next : Int

/-- The vectors of the framework, as far as the renderer uses them. `getPtr` reads the element at an
index, and `none` stands for an access outside of the vector. -/
structure FragVec (F V : Type) where
  createEmpty : V
  pushBack : V → F → V × Int
  getPtr : V → Int → Option F
  set : V → Int → F → Option V
  size : V → Int
  contents : V → List F
  contents_createEmpty : contents createEmpty = []
  contents_pushBack : ∀ v f, contents (pushBack v f).1 = contents v ++ [f]
  pushBack_index : ∀ v f, (pushBack v f).2 = (contents v).length
  getPtr_eq : ∀ v i, getPtr v i = if 0 ≤ i then (contents v)[i.toNat]? else none
  set_eq : ∀ v i f, (set v i f).map contents =
    if 0 ≤ i ∧ i < (contents v).length then some ((contents v).set i.toNat f) else none
  size_eq : ∀ v, size v = (contents v).length

/-- Lists are such vectors. -/
def FragVec.list : FragVec F (List F) where
  createEmpty := []
  pushBack v f := (v ++ [f], v.length)
  getPtr v i := if 0 ≤ i then v[i.toNat]? else none
  set v i f := if 0 ≤ i ∧ i < v.length then some (v.set i.toNat f) else none
  size v := v.length
  contents v := v
  contents_createEmpty := rfl
  contents_pushBack _ _ := rfl
  pushBack_index _ _ := rfl
  getPtr_eq _ _ := rfl
  set_eq _ _ _ := Option.map_id'
  size_eq _ := rfl

/-- `S_StudentRenderer`, with the heads of the lists row by row. -/
structure Renderer (V : Type) where
  frame_w : Int
  frame_h : Int
  head_point : List Int
  frag : V
  length_head : (head_point.length : Int) = frame_w * frame_h

/-- A call of `studrenDrawTriangle`: the corners, and the colour and the depth that it interpolates
in a turn of its loops. -/
structure DrawCall (C D : Type) where
  v1 : Point Int
  v2 : Point Int
  v3 : Point Int
  shade : Iteration → C × D

variable {C D V : Type}

/-- `for(i=0;i<count;++i) renderer->head_point[i] = -1;` -/
def clearHeads : Nat → List Int → List Int
  | 0, head => head
  | i + 1, head => (clearHeads i head).set i (-1)

theorem length_clearHeads (n : Nat) (head : List Int) :
    (clearHeads n head).length = head.length := by
  induction n with
  | zero => rfl
  | succ n ih => rw [clearHeads, List.length_set, ih]

/-- `studrenClearBuffers` -/
def clearBuffers (vec : FragVec (Frag C D) V) (r : Renderer V) : Renderer V where
  frame_w := r.frame_w
  frame_h := r.frame_h
  head_point := clearHeads (r.frame_w * r.frame_h).toNat r.head_point
  frag := vec.createEmpty
  length_head := by rw [length_clearHeads, r.length_head]

def readHead (head : List Int) (i : Int) : Option Int := if 0 ≤ i then head[i.toNat]? else none

/-- A pixel that is in front of the one in the buffer. -/
def pushFragment (vec : FragVec (Frag C D) V) (r : Renderer V) (x y : Int) (color : C) (z : D) :
    Option (Renderer V) := do
  let order ← readHead r.head_point (y * r.frame_w + x)
  let (frag, index) := vec.pushBack r.frag ⟨color, z, order⟩
  return { r with
    head_point := r.head_point.set (y * r.frame_w + x).toNat index
    frag
    length_head := by rw [List.length_set, r.length_head] }

/-- The body of the loops of `studrenDrawTriangle`. `depthBuffer` is `DEPTH`. -/
def drawPixel [LT D] [DecidableLT D] (vec : FragVec (Frag C D) V) (depthBuffer : Int → Int → D)
    (t : DrawCall C D) (r : Renderer V) (i : Iteration) : Option (Renderer V) :=
  if i.inside ∧ (t.shade i).2 < depthBuffer i.x i.y then
    pushFragment vec r i.x i.y (t.shade i).1 (t.shade i).2
  else some r

/-- The fragments that `studrenDrawTriangle` pushes. -/
def drawFragments [LT D] [DecidableLT D] (vec : FragVec (Frag C D) V) (depthBuffer : Int → Int → D)
    (r : Renderer V) (t : DrawCall C D) : Option (Renderer V) :=
  (studrenDrawTriangle r.frame_w r.frame_h t.v1 t.v2 t.v3).foldlM (drawPixel vec depthBuffer t) r

/-- From an index on along `next`: the indices. -/
def path (vec : FragVec (Frag C D) V) (frag : V) : Nat → Int → Option (List Int)
  | 0, order => if order = -1 then some [] else none
  | fuel + 1, order =>
    if order = -1 then some []
    else do
      let f ← vec.getPtr frag order
      let rest ← path vec frag fuel f.next
      return order :: rest

/-- The `while` loop of `renderStudentScene` that copies a list. -/
def copyLoop (vec : FragVec (Frag C D) V) (frag : V) : Nat → Frag C D → V → Option V
  | 0, _, _ => none
  | fuel + 1, f, copy =>
    if f.next ≠ -1 then do
      let f ← vec.getPtr frag f.next
      copyLoop vec frag fuel f (vec.pushBack copy f).1
    else some copy

/-- The list that starts at an index which is not -1. -/
def copyList (vec : FragVec (Frag C D) V) (frag : V) (fuel : Nat) (order : Int) : Option V := do
  let f ← vec.getPtr frag order
  copyLoop vec frag fuel f (vec.pushBack vec.createEmpty f).1

/-! ### What is stored -/

/-- A fragment that has been stored for a pixel. -/
structure Stored (C D : Type) where
  pixel : Point Int
  color : C
  depth : D

/-- What a turn of the loops stores. -/
def storedPixel [LT D] [DecidableLT D] (depthBuffer : Int → Int → D) (t : DrawCall C D)
    (i : Iteration) : Option (Stored C D) :=
  if i.inside ∧ (t.shade i).2 < depthBuffer i.x i.y then
    some ⟨⟨i.x, i.y⟩, (t.shade i).1, (t.shade i).2⟩
  else none

/-- What a call stores. -/
def stored [LT D] [DecidableLT D] (frame_w frame_h : Int) (depthBuffer : Int → Int → D)
    (t : DrawCall C D) : List (Stored C D) :=
  (studrenDrawTriangle frame_w frame_h t.v1 t.v2 t.v3).filterMap (storedPixel depthBuffer t)

/-- The indices of the fragments of a pixel among the first `n`, the newest first. -/
def indices (log : List (Stored C D)) (p : Point Int) : Nat → List Nat
  | 0 => []
  | n + 1 => if log[n]?.map (·.pixel) = some p then n :: indices log p n else indices log p n

/-- The index of the newest fragment of a pixel among the first `n`, or -1. -/
def newest (log : List (Stored C D)) (p : Point Int) (n : Nat) : Int :=
  match indices log p n with
  | [] => -1
  | k :: _ => k

/-- The vector and the heads for what has been stored. -/
structure Lists (vec : FragVec (Frag C D) V) (log : List (Stored C D)) (r : Renderer V) : Prop where
  length : (vec.contents r.frag).length = log.length
  heads : ∀ p, InWindow r.frame_w r.frame_h p →
    readHead r.head_point (p.y * r.frame_w + p.x) = some (newest log p log.length)
  frags : ∀ k e, log[k]? = some e →
    (vec.contents r.frag)[k]? = some (Frag.mk e.color e.depth (newest log e.pixel k))

variable {vec : FragVec (Frag C D) V} {log : List (Stored C D)} {r : Renderer V} {p q : Point Int}
  {e : Stored C D} {v : V} {a c : List (Frag C D)} {x : Frag C D}

/-! ### The vector -/

theorem getPtr_length (h : vec.contents v = a ++ x :: c) : vec.getPtr v a.length = some x := by
  rw [vec.getPtr_eq, if_pos (Int.natCast_nonneg _), Int.toNat_natCast, h,
    List.getElem?_append_right (Nat.le_refl _), Nat.sub_self]
  rfl

theorem set_length (h : vec.contents v = a ++ x :: c) (f : Frag C D) :
    ∃ v', vec.set v a.length f = some v' ∧ vec.contents v' = a ++ f :: c := by
  have hset := vec.set_eq v a.length f
  rw [h, if_pos ⟨Int.natCast_nonneg _, by simp⟩, Int.toNat_natCast,
    List.set_append_right _ _ (Nat.le_refl _), Nat.sub_self] at hset
  obtain ⟨v', hv', hcontents⟩ := Option.map_eq_some_iff.mp hset
  exact ⟨v', hv', hcontents⟩

/-! ### Indices -/

theorem indices_append (hn : n ≤ log.length) : indices (log ++ [e]) p n = indices log p n := by
  induction n with
  | zero => rfl
  | succ n ih =>
    rw [indices, indices, List.getElem?_append_left hn, ih (Nat.le_of_succ_le hn)]

theorem newest_append (hn : n ≤ log.length) : newest (log ++ [e]) p n = newest log p n := by
  rw [newest, newest, indices_append hn]

theorem newest_concat_self : newest (log ++ [e]) e.pixel (log ++ [e]).length = log.length := by
  rw [List.length_append, List.length_singleton, newest, indices, if_pos (by simp)]

theorem newest_concat_of_ne (hp : e.pixel ≠ p) :
    newest (log ++ [e]) p (log ++ [e]).length = newest log p log.length := by
  rw [List.length_append, List.length_singleton, newest, indices, if_neg (by simpa using hp),
    indices_append (Nat.le_refl _)]
  rfl

/-- A fragment and those before it. -/
theorem indices_cases (log : List (Stored C D)) (p : Point Int) (n : Nat) :
    indices log p n = [] ∧ newest log p n = -1 ∨ ∃ k e, k < n ∧ log[k]? = some e ∧ e.pixel = p ∧
      indices log p n = k :: indices log p k ∧ newest log p n = k := by
  have hcases : indices log p n = [] ∨ ∃ k e, k < n ∧ log[k]? = some e ∧ e.pixel = p ∧
      indices log p n = k :: indices log p k := by
    induction n with
    | zero => exact .inl rfl
    | succ n ih =>
      rw [indices]
      split
      next hpixel =>
        obtain ⟨e, he, hp⟩ := Option.map_eq_some_iff.mp hpixel
        exact .inr ⟨n, e, Nat.lt_succ_self n, he, hp, rfl⟩
      next =>
        rcases ih with hnil | ⟨k, e, hk, hcons⟩
        · exact .inl hnil
        · exact .inr ⟨k, e, Nat.lt_succ_of_lt hk, hcons⟩
  rcases hcases with hnil | ⟨k, e, hk, he, hp, hcons⟩
  · exact .inl ⟨hnil, by rw [newest, hnil]⟩
  · exact .inr ⟨k, e, hk, he, hp, hcons, by rw [newest, hcons]⟩

/-- The indices are the ones of the fragments of the pixel. -/
theorem mem_indices : k ∈ indices log p n ↔ k < n ∧ log[k]?.map (·.pixel) = some p := by
  induction n with
  | zero => simp [indices]
  | succ n ih =>
    rw [indices]
    split
    next hpixel =>
      rw [List.mem_cons, ih]
      constructor
      · rintro (rfl | ⟨hk, hp⟩)
        · exact ⟨Nat.lt_succ_self k, hpixel⟩
        · exact ⟨Nat.lt_succ_of_lt hk, hp⟩
      · rintro ⟨hk, hp⟩
        rcases Nat.eq_or_lt_of_le (Nat.le_of_lt_succ hk) with rfl | hk
        · exact .inl rfl
        · exact .inr ⟨hk, hp⟩
    next hpixel =>
      rw [ih]
      constructor
      · exact fun ⟨hk, hp⟩ => ⟨Nat.lt_succ_of_lt hk, hp⟩
      · rintro ⟨hk, hp⟩
        rcases Nat.eq_or_lt_of_le (Nat.le_of_lt_succ hk) with rfl | hk
        · exact absurd hp hpixel
        · exact ⟨hk, hp⟩

/-- Each fragment once, the newest first. -/
theorem indices_pairwise (log : List (Stored C D)) (p : Point Int) (n : Nat) :
    (indices log p n).Pairwise (· > ·) := by
  induction n with
  | zero => exact .nil
  | succ n ih =>
    rw [indices]
    split
    next => exact List.pairwise_cons.mpr ⟨fun k hk => (mem_indices.mp hk).1, ih⟩
    next => exact ih

/-! ### Drawing -/

/-- The places of pixels in `head_point`. -/
theorem pixel_index (hp : InWindow w h p) : 0 ≤ p.y * w + p.x ∧ p.y * w + p.x < w * h := by
  obtain ⟨hx, hxw, hy, hyh⟩ := hp
  refine ⟨add_nonneg (mul_nonneg hy (by omega)) hx, ?_⟩
  calc p.y * w + p.x < p.y * w + w := by omega
    _ = (p.y + 1) * w := by ring
    _ ≤ h * w := mul_le_mul_of_nonneg_right hyh (by omega)
    _ = w * h := mul_comm h w

theorem pixel_inj (hp : InWindow w h p) (hq : InWindow w h q)
    (heq : p.y * w + p.x = q.y * w + q.x) : p = q := by
  have hx : p.x = q.x := by
    have hmod := congrArg (· % w) heq
    simpa [Int.emod_eq_of_lt hp.1 hp.2.1, Int.emod_eq_of_lt hq.1 hq.2.1] using hmod
  have hw : w ≠ 0 := by
    obtain ⟨hx0, hxw, -⟩ := hp
    omega
  refine Point.ext hx (mul_right_cancel₀ hw ?_)
  omega

theorem readHead_set {head : List Int} {i k : Int} (order : Int) (hi : 0 ≤ i) (hlt : i < head.length)
    (hk : 0 ≤ k) : readHead (head.set i.toNat order) k =
      if i = k then some order else readHead head k := by
  rw [readHead, readHead, if_pos hk, List.getElem?_set]
  split
  next heq => rw [if_pos (by omega), if_pos (by omega)]
  next hne => rw [if_neg (by omega)]

/-- A fragment is put in front of the list of its pixel, and the other lists stay as they are. -/
theorem Lists.push (h : Lists vec log r) (hp : InWindow r.frame_w r.frame_h p) (color : C) (z : D) :
    ∃ r', pushFragment vec r p.x p.y color z = some r' ∧ r'.frame_w = r.frame_w ∧
      r'.frame_h = r.frame_h ∧ Lists vec (log ++ [⟨p, color, z⟩]) r' := by
  obtain ⟨hle, hlt⟩ := pixel_index hp
  rw [← r.length_head] at hlt
  rw [pushFragment, h.heads p hp]
  refine ⟨_, rfl, rfl, rfl, ?_⟩
  refine {
    length := ?_
    heads := fun q hq => ?_
    frags := fun k e he => ?_ }
  · dsimp only
    rw [vec.contents_pushBack, List.length_append, List.length_append, h.length]
    rfl
  · dsimp only at hq ⊢
    rw [readHead_set _ hle hlt (pixel_index hq).1, vec.pushBack_index, h.length]
    split
    next heq =>
      obtain rfl := pixel_inj hp hq heq
      rw [newest_concat_self]
    next hne =>
      have hpq : p ≠ q := by
        rintro rfl
        exact hne rfl
      rw [newest_concat_of_ne hpq, h.heads q hq]
  · dsimp only
    rw [vec.contents_pushBack]
    rcases Nat.lt_trichotomy k log.length with hk | rfl | hk
    · rw [List.getElem?_append_left hk] at he
      rw [List.getElem?_append_left (h.length ▸ hk), h.frags k e he, newest_append (Nat.le_of_lt hk)]
    · rw [List.getElem?_concat_length] at he
      obtain rfl := Option.some.inj he
      rw [← h.length, List.getElem?_concat_length, h.length, newest_append (Nat.le_refl _)]
    · rw [List.getElem?_eq_none (by rw [List.length_append]; exact hk)] at he
      cases he

section
variable [LT D] [DecidableLT D]

theorem Lists.drawPixel (depthBuffer : Int → Int → D) (t : DrawCall C D) (h : Lists vec log r)
    (hp : InWindow r.frame_w r.frame_h ⟨i.x, i.y⟩) :
    ∃ r', drawPixel vec depthBuffer t r i = some r' ∧ r'.frame_w = r.frame_w ∧
      r'.frame_h = r.frame_h ∧ Lists vec (log ++ (storedPixel depthBuffer t i).toList) r' := by
  rw [StudentRenderer.drawPixel, storedPixel]
  split
  next => exact h.push hp _ _
  next =>
    refine ⟨r, rfl, rfl, rfl, ?_⟩
    rw [Option.toList_none, List.append_nil]
    exact h

/-- The loops of one call. -/
theorem Lists.drawPixels (depthBuffer : Int → Int → D) (t : DrawCall C D) {is : List Iteration}
    (h : Lists vec log r)
    (his : ∀ i ∈ is, InWindow r.frame_w r.frame_h ⟨i.x, i.y⟩) :
    ∃ r', is.foldlM (StudentRenderer.drawPixel vec depthBuffer t) r = some r' ∧
      r'.frame_w = r.frame_w ∧ r'.frame_h = r.frame_h ∧
      Lists vec (log ++ is.filterMap (storedPixel depthBuffer t)) r' := by
  induction is generalizing log r with
  | nil => exact ⟨r, rfl, rfl, rfl, by rwa [List.filterMap_nil, List.append_nil]⟩
  | cons i is ih =>
    rw [List.forall_mem_cons] at his
    obtain ⟨r₁, hr₁, hw₁, hh₁, h₁⟩ := h.drawPixel depthBuffer t his.1
    obtain ⟨r₂, hr₂, hw₂, hh₂, h₂⟩ := ih h₁ (by rw [hw₁, hh₁]; exact his.2)
    refine ⟨r₂, ?_, hw₂.trans hw₁, hh₂.trans hh₁, ?_⟩
    · rw [List.foldlM_cons, hr₁]
      exact hr₂
    · rw [List.append_assoc] at h₂
      rw [List.filterMap_cons]
      cases hi : storedPixel depthBuffer t i with
      | none => rwa [hi] at h₂
      | some e => rwa [hi] at h₂

/-- The calls after the buffers have been cleared. -/
theorem Lists.draw (depthBuffer : Int → Int → D) (calls : List (DrawCall C D))
    (h : Lists vec log r) :
    ∃ r', calls.foldlM (drawFragments vec depthBuffer) r = some r' ∧
      r'.frame_w = r.frame_w ∧ r'.frame_h = r.frame_h ∧
      Lists vec (log ++ calls.flatMap (stored r.frame_w r.frame_h depthBuffer)) r' := by
  induction calls generalizing log r with
  | nil => exact ⟨r, rfl, rfl, rfl, by rwa [List.flatMap_nil, List.append_nil]⟩
  | cons t calls ih =>
    obtain ⟨r₁, hr₁, hw₁, hh₁, h₁⟩ := h.drawPixels depthBuffer t fun i hi =>
      (mem_studrenDrawTriangle.mp hi).2.1
    obtain ⟨r₂, hr₂, hw₂, hh₂, h₂⟩ := ih h₁
    refine ⟨r₂, ?_, hw₂.trans hw₁, hh₂.trans hh₁, ?_⟩
    · rw [List.foldlM_cons, drawFragments, hr₁]
      exact hr₂
    · rw [hw₁, hh₁, List.append_assoc] at h₂
      exact h₂

end

theorem readHead_clearHeads {head : List Int} (hk : k < n) (hn : n ≤ head.length) :
    readHead (clearHeads n head) k = some (-1) := by
  have hk0 : (0 : Int) ≤ k := Int.natCast_nonneg k
  induction n with
  | zero => exact absurd hk (Nat.not_lt_zero k)
  | succ n ih =>
    have hset := readHead_set (-1) (Int.natCast_nonneg n)
      (show (n : Int) < (clearHeads n head).length by rw [length_clearHeads]; omega) hk0
    rw [Int.toNat_natCast] at hset
    rw [clearHeads, hset]
    split
    next => rfl
    next hne => exact ih (by omega) (by omega)

/-- No fragment is stored when the buffers have been cleared. -/
theorem Lists.clear (vec : FragVec (Frag C D) V) (r : Renderer V) :
    Lists vec [] (clearBuffers vec r) where
  length := by rw [clearBuffers, vec.contents_createEmpty]; rfl
  heads := fun p hp => by
    obtain ⟨hle, hlt⟩ := pixel_index hp
    obtain ⟨k, hk⟩ := Int.eq_ofNat_of_zero_le hle
    have hlength := r.length_head
    rw [clearBuffers] at *
    dsimp only at *
    rw [hk]
    exact readHead_clearHeads (by omega) (by omega)
  frags := fun k e he => by cases he

end StudentRenderer
