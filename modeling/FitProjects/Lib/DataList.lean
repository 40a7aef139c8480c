import Mathlib.Data.List.Lattice
import Mathlib.Data.List.Nodup
import Mathlib.Data.List.TakeWhile
import Mathlib.Order.Defs.LinearOrder
import Mathlib.Tactic.Common
import Mathlib.Order.Lattice

/-! # Functions of `Data.List` and `Data.Map`

Sorting, grouping and ordered maps as the Haskell libraries document them. `nub` is
`List.eraseDups` and `\\` is `List.diff`. -/

namespace DataList

/-- `sortBy (compare `on` key)`: stable, ascending. -/
def sortOn [LinearOrder κ] (key : α → κ) (l : List α) : List α :=
  l.mergeSort fun a b => decide (key a ≤ key b)

/-- `sort`. -/
def sort [LinearOrder α] (l : List α) : List α := sortOn id l

/-- `groupBy`: each element is compared with the first one of its group. -/
def groupBy (r : α → α → Bool) : List α → List (List α)
  | [] => []
  | x :: l => (x :: l.takeWhile (r x)) :: groupBy r (l.dropWhile (r x))
termination_by l => l.length
decreasing_by exact Nat.lt_succ_of_le (List.dropWhile_sublist _).length_le

/-! ## Sorting and grouping -/

section
variable {α : Type u} {κ : Type v} [LinearOrder κ] {key : α → κ} {l : List α}

theorem sortOn_perm (key : α → κ) (l : List α) : (sortOn key l).Perm l :=
  List.mergeSort_perm l _

@[simp] theorem mem_sortOn : a ∈ sortOn key l ↔ a ∈ l := (sortOn_perm key l).mem_iff

@[simp] theorem mem_sort [LinearOrder α] {a : α} : a ∈ sort l ↔ a ∈ l := mem_sortOn

theorem sortOn_pairwise (key : α → κ) (l : List α) :
    (sortOn key l).Pairwise fun a b => key a ≤ key b := by
  refine (List.pairwise_mergeSort ?_ ?_ l).imp fun h => of_decide_eq_true h
  · simp only [decide_eq_true_eq]
    exact fun a b c => le_trans
  · simp only [Bool.or_eq_true, decide_eq_true_eq]
    exact fun a b => le_total _ _

theorem nodup_eraseDups [BEq α] [LawfulBEq α] : ∀ l : List α, l.eraseDups.Nodup
  | [] => List.nodup_nil
  | a :: l => by
    rw [List.eraseDups_cons, List.nodup_cons]
    exact ⟨by simp, nodup_eraseDups _⟩
termination_by l => l.length
decreasing_by exact Nat.lt_succ_of_le (List.length_filter_le _ _)

theorem flatten_groupBy (r : α → α → Bool) (l : List α) : (groupBy r l).flatten = l := by
  induction l using groupBy.induct r with
  | case1 => simp [groupBy]
  | case2 x l ih =>
    rw [groupBy, List.flatten_cons, ih, List.cons_append, List.takeWhile_append_dropWhile]

theorem ne_nil_of_mem_groupBy {r : α → α → Bool} (hg : g ∈ groupBy r l) : g ≠ [] := by
  induction l using groupBy.induct r with
  | case1 => simp [groupBy] at hg
  | case2 x l ih =>
    rw [groupBy, List.mem_cons] at hg
    rcases hg with rfl | hg
    · simp
    · exact ih hg

/-- In a list sorted by a key, grouping by the key puts into one group exactly the elements with one
key, and the groups are in the order of their keys. -/
theorem groupBy_of_sorted (key : α → κ) {r : α → α → Bool}
    (hr : ∀ a ∈ l, ∀ b ∈ l, r a b = true ↔ key a = key b)
    (hl : l.Pairwise fun a b => key a ≤ key b) :
    (∀ g ∈ groupBy r l, ∀ a ∈ g, ∀ b ∈ g, key a = key b) ∧
      (groupBy r l).Pairwise fun g g' => ∀ a ∈ g, ∀ b ∈ g', key a < key b := by
  induction l using groupBy.induct r with
  | case1 => simp [groupBy]
  | case2 x l ih =>
    rw [List.pairwise_cons] at hl
    obtain ⟨hx, hl⟩ := hl
    have hdrop : ∀ a ∈ l.dropWhile (r x), a ∈ l := (l.dropWhile_sublist _).subset
    obtain ⟨ih1, ih2⟩ := ih (fun a ha b hb => hr a (.tail _ (hdrop a ha)) b (.tail _ (hdrop b hb)))
      (hl.sublist (l.dropWhile_sublist _))
    have hhead : ∀ a ∈ x :: l.takeWhile (r x), key a = key x := by
      intro a ha
      rcases List.mem_cons.mp ha with rfl | ha
      · rfl
      · have hra := List.mem_takeWhile_imp ha
        exact ((hr x List.mem_cons_self a (.tail _ ((l.takeWhile_sublist _).subset ha))).mp hra).symm
    have htail : ∀ b ∈ l.dropWhile (r x), key x < key b := by
      intro b hb
      cases hd : l.dropWhile (r x) with
      | nil => simp [hd] at hb
      | cons z zs =>
        have hz : z ∈ l := hdrop z (by simp [hd])
        have hrz : r x z ≠ true := by
          have := List.head_dropWhile_not (r x) (l := l) (by simp [hd])
          simpa [hd] using this
        have hne : key x ≠ key z := fun h =>
          hrz ((hr x List.mem_cons_self z (.tail _ hz)).mpr h)
        have hzb : key z ≤ key b := by
          have hp := hl.sublist (l.dropWhile_sublist (r x))
          rw [hd] at hp hb
          rcases List.mem_cons.mp hb with rfl | hb
          · exact le_rfl
          · exact List.rel_of_pairwise_cons hp hb
        exact lt_of_lt_of_le (lt_of_le_of_ne (hx z hz) hne) hzb
    rw [groupBy]
    refine ⟨fun g hg a ha b hb => ?_, ?_⟩
    · rcases List.mem_cons.mp hg with rfl | hg
      · rw [hhead a ha, hhead b hb]
      · exact ih1 g hg a ha b hb
    · rw [List.pairwise_cons]
      refine ⟨fun g hg a ha b hb => ?_, ih2⟩
      rw [hhead a ha]
      refine htail b ?_
      rw [← flatten_groupBy r (l.dropWhile (r x))]
      exact List.mem_flatten_of_mem hg hb

end

/-! ## Ordered maps -/

/-- A map: its entries, in ascending order of the keys. -/
abbrev Map (κ : Type u) (υ : Type v) := List (κ × υ)

namespace Map
variable {κ : Type u} {υ : Type v} [LinearOrder κ] {m : Map κ υ} {k : κ} {v : υ}
  {l : List (κ × υ)}

/-- `Map.insert`: a new value replaces the old one. -/
def insert (k : κ) (v : υ) : Map κ υ → Map κ υ
  | [] => [(k, v)]
  | (k', v') :: m =>
    if k < k' then (k, v) :: (k', v') :: m
    else if k = k' then (k, v) :: m
    else (k', v') :: insert k v m

/-- `Map.fromList`: of several values for one key the last one counts. -/
def fromList (l : List (κ × υ)) : Map κ υ := l.foldl (fun m e => insert e.1 e.2 m) []

/-- `Map.lookup`. -/
def lookup (k : κ) (m : Map κ υ) : Option υ := List.lookup k m

/-- `Map.elems`. -/
def elems (m : Map κ υ) : List υ := m.map Prod.snd

theorem insert_perm (h : k ∉ m.map Prod.fst) : (insert k v m).Perm ((k, v) :: m) := by
  induction m with
  | nil => rfl
  | cons e m ih =>
    obtain ⟨k', v'⟩ := e
    simp only [List.map_cons, List.mem_cons, not_or] at h
    rw [insert]
    split_ifs with h1
    · rfl
    · exact absurd ‹_› h.1
    · exact ((ih h.2).cons _).trans (List.Perm.swap ..)

/-- With distinct keys the map has just the entries of the list. -/
theorem fromList_perm (h : (l.map Prod.fst).Nodup) : (fromList l).Perm l := by
  have hgen : ∀ m : Map κ υ, ((m ++ l).map Prod.fst).Nodup →
      (l.foldl (fun m e => insert e.1 e.2 m) m).Perm (m ++ l) := by
    clear h
    induction l with
    | nil => simp
    | cons e l ih =>
      intro m hm
      have hmid : (m ++ e :: l).Perm ((e :: m) ++ l) := List.perm_middle
      have hm' : (((e :: m) ++ l).map Prod.fst).Nodup := ((hmid.map Prod.fst).nodup_iff).mp hm
      have he : e.1 ∉ m.map Prod.fst := by
        simp only [List.cons_append, List.map_cons, List.nodup_cons, List.map_append,
          List.mem_append, not_or] at hm'
        exact hm'.1.1
      have hins : (insert e.1 e.2 m ++ l).Perm ((e :: m) ++ l) :=
        (insert_perm he).append_right l
      exact (ih _ (((hins.map Prod.fst).nodup_iff).mpr hm')).trans (hins.trans hmid.symm)
  exact hgen [] h

theorem lookup_eq_some (h : (m.map Prod.fst).Nodup) : lookup k m = some v ↔ (k, v) ∈ m := by
  induction m with
  | nil => simp [lookup]
  | cons e m ih =>
    obtain ⟨k', v'⟩ := e
    simp only [List.map_cons, List.nodup_cons] at h
    by_cases hk : k = k'
    · subst hk
      have hn : (k, v) ∉ m := fun hv => h.1 (List.mem_map_of_mem (f := Prod.fst) hv)
      simp [lookup, hn, eq_comm]
    · have hne : (k == k') = false := by simpa using hk
      rw [lookup, List.lookup_cons, hne]
      simpa [hk, lookup] using ih h.2

theorem lookup_fromList (h : (l.map Prod.fst).Nodup) :
    lookup k (fromList l) = some v ↔ (k, v) ∈ l := by
  have hp := fromList_perm h
  rw [lookup_eq_some (((hp.map Prod.fst).nodup_iff).mpr h), hp.mem_iff]

theorem mem_elems_fromList (h : (l.map Prod.fst).Nodup) :
    v ∈ elems (fromList l) ↔ ∃ k, (k, v) ∈ l := by
  rw [elems, ((fromList_perm h).map Prod.snd).mem_iff]
  simp

end Map

end DataList
