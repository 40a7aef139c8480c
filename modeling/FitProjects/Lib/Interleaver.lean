import Mathlib.Data.Finset.Max
import Mathlib.Data.Set.Function
import Mathlib.Order.Interval.Finset.Nat

/-! # Interleaving of words

Words of `n` bytes stand side by side as the columns of a table, and the table is read row by row.
The first `w` columns are full, and a last column has only the rows before `L`. -/

/-! ## Loops that write at computed indices -/

/-- `for (i = 0; i < n; ++i) l[place(i)] = value(i)`. -/
def setEach (n : Nat) (place : Nat → Nat) (value : Nat → α) (l : List α) : List α :=
  (List.range n).foldl (fun l i => l.set (place i) (value i)) l

theorem setEach_succ (n : Nat) (place : Nat → Nat) (value : Nat → α) (l : List α) :
    setEach (n + 1) place value l = (setEach n place value l).set (place n) (value n) := by
  rw [setEach, List.range_succ, List.foldl_append]
  rfl

@[simp] theorem length_setEach (n : Nat) (place : Nat → Nat) (value : Nat → α) (l : List α) :
    (setEach n place value l).length = l.length := by
  induction n with
  | zero => rfl
  | succ n ih => rw [setEach_succ, List.length_set, ih]

section
variable {place : Nat → Nat} {value : Nat → α} {l : List α}

theorem getElem?_setEach_of_ne (h : ∀ i < n, place i ≠ p) :
    (setEach n place value l)[p]? = l[p]? := by
  induction n with
  | zero => rfl
  | succ n ih =>
    rw [setEach_succ, List.getElem?_set_ne (h n (Nat.lt_succ_self n))]
    exact ih fun i hi => h i (Nat.lt_succ_of_lt hi)

theorem getElem?_setEach (hinj : Set.InjOn place (Set.Iio n)) (hi : i < n)
    (hlt : place i < l.length) : (setEach n place value l)[place i]? = some (value i) := by
  induction n with
  | zero => exact absurd hi (Nat.not_lt_zero i)
  | succ n ih =>
    rw [setEach_succ]
    rcases Nat.lt_succ_iff_lt_or_eq.mp hi with hi | rfl
    · have hne : place n ≠ place i := fun heq =>
        Nat.ne_of_gt hi (hinj (Set.mem_Iio.mpr (Nat.lt_succ_self n))
          (Set.mem_Iio.mpr (Nat.lt_succ_of_lt hi)) heq)
      rw [List.getElem?_set_ne hne]
      exact ih (hinj.mono (Set.Iio_subset_Iio (Nat.le_succ n))) hi
    · exact List.getElem?_set_self (by rwa [length_setEach])

end

/-! ## The table -/

namespace Interleaver

/-- Column `j` has a byte in row `i`. -/
def Cell (n w L j i : Nat) : Prop := i < n ∧ (j < w ∨ j = w ∧ i < L)

/-- The index of the byte when the table is read row by row. -/
def place (w L j i : Nat) : Nat := j + (i * w + min i L)

variable {n w L : Nat}

/-- A byte stands before every later row. -/
theorem place_lt_rowStart (h : Cell n w L j i) (hlt : i < i') : place w L j i < place w L 0 i' := by
  have hrow : (i + 1) * w ≤ i' * w := Nat.mul_le_mul_right w hlt
  rw [Nat.succ_mul] at hrow
  rw [place, place]
  obtain ⟨-, hj | ⟨rfl, hi⟩⟩ := h
  · omega
  · omega

theorem place_inj (h : Cell n w L j i) (h' : Cell n w L j' i')
    (heq : place w L j i = place w L j' i') : j = j' ∧ i = i' := by
  have hle : ∀ {k j}, place w L 0 k ≤ place w L j k := fun {k j} =>
    Nat.add_le_add_right (Nat.zero_le j) _
  rcases Nat.lt_trichotomy i i' with hlt | rfl | hlt
  · exact absurd heq (Nat.ne_of_lt (Nat.lt_of_lt_of_le (place_lt_rowStart h hlt) hle))
  · exact ⟨Nat.add_right_cancel heq, rfl⟩
  · exact absurd heq.symm (Nat.ne_of_lt (Nat.lt_of_lt_of_le (place_lt_rowStart h' hlt) hle))

theorem place_lt (hL : L ≤ n) (h : Cell n w L j i) : place w L j i < n * w + L := by
  have hlt := place_lt_rowStart h h.1
  rwa [place, place, Nat.zero_add, Nat.min_eq_right hL] at hlt

/-- The bytes before row `n` are the cells of the rows before `n`. -/
theorem exists_place (h : p < place w L 0 n) : ∃ j i, Cell n w L j i ∧ place w L j i = p := by
  induction n with
  | zero =>
    rw [place, Nat.zero_mul, Nat.zero_min] at h
    exact absurd h (Nat.not_lt_zero p)
  | succ n ih =>
    rcases Nat.lt_or_ge p (place w L 0 n) with hlt | hge
    · obtain ⟨j, i, hcell, rfl⟩ := ih hlt
      exact ⟨j, i, ⟨Nat.lt_succ_of_lt hcell.1, hcell.2⟩, rfl⟩
    · refine ⟨p - place w L 0 n, n, ⟨Nat.lt_succ_self n, ?_⟩, ?_⟩
      · rw [place, Nat.succ_mul] at h
        rw [place] at hge ⊢
        omega
      · rw [place] at hge ⊢
        rw [place]
        omega

theorem bijOn_place (hL : L ≤ n) :
    Set.BijOn (fun c : Nat × Nat => place w L c.1 c.2) {c | Cell n w L c.1 c.2}
      (Set.Iio (n * w + L)) := by
  refine ⟨?_, ?_, ?_⟩
  · intro c hc
    exact place_lt hL hc
  · intro c hc c' hc' heq
    obtain ⟨hj, hi⟩ := place_inj hc hc' heq
    exact Prod.ext hj hi
  · intro p hp
    have hend : place w L 0 n = n * w + L := by
      rw [place, Nat.zero_add, Nat.min_eq_right hL]
    obtain ⟨j, i, hcell, hplace⟩ := exists_place (hend ▸ Set.mem_Iio.mp hp)
    exact ⟨(j, i), hcell, hplace⟩

/-! ## Bursts -/

/-- Two bytes of a column are as far apart as full rows between them. -/
theorem place_add_le (j i k : Nat) : place w L j i + k * w ≤ place w L j (i + k) := by
  have hmin : min i L ≤ min (i + k) L := by omega
  rw [place, place, Nat.add_mul]
  omega

/-- A window as long as `t` full rows has at most `t` bytes of a column. -/
theorem card_window_le (hb : b ≤ t * w) (m j s : Nat) :
    ((Finset.range m).filter fun i => s ≤ place w L j i ∧ place w L j i < s + b).card ≤ t := by
  generalize hwin :
    ((Finset.range m).filter fun i => s ≤ place w L j i ∧ place w L j i < s + b) = window
  rcases window.eq_empty_or_nonempty with rfl | hne
  · exact Nat.zero_le t
  · have hfirst := window.min'_mem hne
    generalize hmin : window.min' hne = first at hfirst
    have hsub : window ⊆ Finset.Ico first (first + t) := by
      intro i hi
      have hle : first ≤ i := hmin ▸ window.min'_le i hi
      rw [← hwin, Finset.mem_filter] at hi hfirst
      refine Finset.mem_Ico.mpr ⟨hle, Nat.lt_of_not_le fun hfar => ?_⟩
      -- the first byte of the window and a byte `t` rows below it
      have hgap := place_add_le (w := w) (L := L) j first t
      have hrest := place_add_le (w := w) (L := L) j (first + t) (i - (first + t))
      rw [Nat.add_sub_cancel' hfar] at hrest
      omega
    have hcard := Finset.card_le_card hsub
    rwa [Nat.card_Ico, Nat.add_sub_cancel_left] at hcard

end Interleaver

/-! ## Wrong bytes -/

/-- The number of places at which two words differ. -/
def differences [DecidableEq α] (u v : List α) : Nat :=
  ((Finset.range (max u.length v.length)).filter fun i => u[i]? ≠ v[i]?).card

section
variable [DecidableEq α] {u v : List α}

/-- The places at which two words differ, in a larger set. -/
theorem differences_le (s : Finset Nat) (h : ∀ i, u[i]? ≠ v[i]? → i ∈ s) :
    differences u v ≤ s.card := by
  apply Finset.card_le_card
  intro i hi
  exact h i (Finset.mem_filter.mp hi).2

theorem differences_self (u : List α) : differences u u = 0 :=
  Nat.le_zero.mp (differences_le ∅ fun _ hne => absurd rfl hne)

end
