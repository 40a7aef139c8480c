import Mathlib.Data.Finset.Card
import Mathlib.Data.List.Nodup
import Mathlib.Data.List.Perm.Subperm
import Mathlib.Data.List.Range
import Mathlib.Order.Defs.LinearOrder

/-! # Ranks

The rank of an element of a list is the number of elements with smaller keys. If the keys are
distinct then the ranks of `n` elements are the numbers below `n`, and the elements by rank are the
elements by key. -/

section
variable {ι : Type u} {κ : Type v} [LinearOrder κ]

/-- The number of elements whose key is smaller than that of `i`. -/
def rank (l : List ι) (key : ι → κ) (i : ι) : Nat := l.countP fun j => decide (key j < key i)

/-- The element with rank `k`. -/
def unrank [Inhabited ι] (l : List ι) (key : ι → κ) (k : Nat) : ι :=
  (l.find? fun i => rank l key i = k).getD default

variable {l : List ι} {key : ι → κ} {i j : ι}

theorem rank_lt_rank (hi : i ∈ l) (h : key i < key j) : rank l key i < rank l key j := by
  unfold rank
  induction l with
  | nil => cases hi
  | cons a l ih =>
    have hle : l.countP (fun k => decide (key k < key i)) ≤
        l.countP (fun k => decide (key k < key j)) :=
      List.countP_mono_left fun k _ hk => by
        rw [decide_eq_true_eq] at hk ⊢
        exact hk.trans h
    rw [List.countP_cons, List.countP_cons]
    rcases List.mem_cons.mp hi with rfl | hi
    · simp [h, Nat.lt_succ_of_le hle]
    · have hlt := ih hi
      by_cases ha : key a < key i
      · simpa [ha, ha.trans h] using hlt
      · simp only [ha, decide_false, Bool.false_eq_true, if_false]
        omega

theorem rank_lt_length (hi : i ∈ l) : rank l key i < l.length := by
  have hle := List.countP_le_length (p := fun j => decide (key j < key i)) (l := l)
  refine lt_of_le_of_ne hle fun heq => ?_
  simpa using List.countP_eq_length.mp heq i hi

theorem key_lt_of_rank_lt (hj : j ∈ l) (h : rank l key i < rank l key j) : key i < key j := by
  rcases lt_trichotomy (key i) (key j) with hlt | heq | hlt
  · exact hlt
  · simp [rank, heq] at h
  · exact absurd (rank_lt_rank hj hlt) h.asymm

/-- In a list that ascends by the keys, the rank is the place. -/
theorem getElem?_rank {s : List ι} (hs : s.Pairwise (key · < key ·)) (hperm : l.Perm s)
    (hi : i ∈ l) : s[rank l key i]? = some i := by
  rw [rank, hperm.countP_eq, ← rank]
  replace hi := hperm.mem_iff.mp hi
  clear hperm
  induction s with
  | nil => cases hi
  | cons a s ih =>
    rw [List.pairwise_cons] at hs
    rcases List.mem_cons.mp hi with rfl | hi
    · have hzero : rank (i :: s) key i = 0 := by
        rw [rank, List.countP_eq_zero]
        intro j hj
        rcases List.mem_cons.mp hj with rfl | hj
        · simp
        · simpa using (hs.1 j hj).le
      rw [hzero]
      rfl
    · have hsucc : rank (a :: s) key i = rank s key i + 1 := by
        rw [rank, List.countP_cons, if_pos (by simpa using hs.1 i hi)]
        rfl
      rw [hsucc, List.getElem?_cons_succ]
      exact ih hs.2 hi

variable (hl : l.Nodup) (hkey : ∀ i ∈ l, ∀ j ∈ l, key i = key j → i = j)
include hkey

theorem rank_inj (hi : i ∈ l) (hj : j ∈ l) (h : rank l key i = rank l key j) : i = j := by
  rcases lt_trichotomy (key i) (key j) with hlt | heq | hlt
  · exact absurd h (rank_lt_rank hi hlt).ne
  · exact hkey i hi j hj heq
  · exact absurd h (rank_lt_rank hj hlt).ne'

theorem unrank_rank [Inhabited ι] (hi : i ∈ l) : unrank l key (rank l key i) = i := by
  unfold unrank
  cases h : l.find? fun j => decide (rank l key j = rank l key i) with
  | none => simpa using List.find?_eq_none.mp h i hi
  | some j =>
    exact rank_inj hkey (List.mem_of_find?_eq_some h) hi (by simpa using List.find?_some h)

include hl

/-- The ranks are the numbers below the length. -/
theorem map_rank_perm : (l.map (rank l key)).Perm (List.range l.length) := by
  have hnodup : (l.map (rank l key)).Nodup :=
    hl.map_on fun i hi j hj h => rank_inj hkey hi hj h
  refine (hnodup.subperm fun k hk => ?_).perm_of_length_le (by simp)
  obtain ⟨i, hi, rfl⟩ := List.mem_map.mp hk
  exact List.mem_range.mpr (rank_lt_length hi)

theorem exists_rank_eq (hk : k < l.length) : ∃ i ∈ l, rank l key i = k := by
  have hmem := (map_rank_perm hl hkey).mem_iff.mpr (List.mem_range.mpr hk)
  exact List.mem_map.mp hmem

variable [Inhabited ι]

theorem unrank_mem (hk : k < l.length) : unrank l key k ∈ l := by
  obtain ⟨i, hi, rfl⟩ := exists_rank_eq hl hkey hk
  rwa [unrank_rank hkey hi]

theorem rank_unrank (hk : k < l.length) : rank l key (unrank l key k) = k := by
  obtain ⟨i, hi, rfl⟩ := exists_rank_eq hl hkey hk
  rw [unrank_rank hkey hi]

/-- The elements by rank are a permutation of the list. -/
theorem map_unrank_perm : ((List.range l.length).map (unrank l key)).Perm l := by
  refine ((map_rank_perm hl hkey).symm.map _).trans ?_
  have hid : l.map (unrank l key ∘ rank l key) = l.map id :=
    List.map_congr_left fun i hi => unrank_rank hkey hi
  rw [List.map_map, hid, List.map_id]

/-- Their keys ascend. -/
theorem key_unrank_lt (hk : k < k') (hk' : k' < l.length) :
    key (unrank l key k) < key (unrank l key k') := by
  refine key_lt_of_rank_lt (unrank_mem hl hkey hk') ?_
  rwa [rank_unrank hl hkey (hk.trans hk'), rank_unrank hl hkey hk']

end
