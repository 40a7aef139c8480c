import Mathlib.Algebra.BigOperators.Group.List.Basic
import Mathlib.Data.List.Nodup
import Mathlib.Algebra.Ring.Int.Defs

/-! # Tables of a database

A table with an automatic primary key: rows under distinct keys, each below the next key to be
given. `insert` adds a row under the next key and `update` changes the row under a key. What an
operation does to a table is described by `get` and by `sum`, the total of a weight over the
rows. -/

/-- Rows of type `ρ` under an automatic primary key. -/
structure Table (ρ : Type u) where
  rows : List (Nat × ρ)
  next : Nat
  nodup : (rows.map Prod.fst).Nodup
  lt_next : ∀ r ∈ rows, r.1 < next

namespace Table

variable {ρ : Type u} {t : Table ρ} {i j : Nat}

/-- The keys in use. -/
def ids (t : Table ρ) : List Nat := t.rows.map Prod.fst

/-- The row under a key. -/
def get (t : Table ρ) (id : Nat) : Option ρ := t.rows.lookup id

def empty : Table ρ := ⟨[], 1, List.nodup_nil, nofun⟩

/-- Add a row under the next key. -/
def insert (t : Table ρ) (r : ρ) : Table ρ where
  rows := t.rows ++ [(t.next, r)]
  next := t.next + 1
  nodup := by
    rw [List.map_append, List.nodup_append]
    refine ⟨t.nodup, List.nodup_singleton _, fun i hi j hj => ?_⟩
    obtain ⟨r', hr', rfl⟩ := List.mem_map.mp hi
    obtain rfl := List.mem_singleton.mp hj
    exact Nat.ne_of_lt (t.lt_next r' hr')
  lt_next := by
    intro r' hr'
    rcases List.mem_append.mp hr' with hr' | hr'
    · exact Nat.lt_succ_of_lt (t.lt_next r' hr')
    · rw [List.mem_singleton.mp hr']
      exact Nat.lt_succ_self _

/-- Change the row under a key. -/
def update (t : Table ρ) (id : Nat) (f : ρ → ρ) : Table ρ where
  rows := t.rows.map fun r => if r.1 = id then (r.1, f r.2) else r
  next := t.next
  nodup := by
    rw [List.map_map, show Prod.fst ∘ (fun r : Nat × ρ => if r.1 = id then (r.1, f r.2) else r) =
      Prod.fst from funext fun r => by rw [Function.comp]; split <;> rfl]
    exact t.nodup
  lt_next := by
    intro r' hr'
    obtain ⟨r, hr, rfl⟩ := List.mem_map.mp hr'
    have := t.lt_next r hr
    split <;> exact this

/-- Delete the row under a key. -/
def erase (t : Table ρ) (id : Nat) : Table ρ where
  rows := t.rows.filter fun r => r.1 ≠ id
  next := t.next
  nodup := t.nodup.sublist (List.filter_sublist.map _)
  lt_next r hr := t.lt_next r (List.mem_of_mem_filter hr)

/-- Add a row under a key that is not in use. -/
def place (t : Table ρ) (id : Nat) (r : ρ) (h : id ∉ t.ids) : Table ρ where
  rows := t.rows ++ [(id, r)]
  next := max t.next (id + 1)
  nodup := by
    rw [List.map_append, List.nodup_append]
    refine ⟨t.nodup, List.nodup_singleton _, fun i hi j hj => ?_⟩
    obtain rfl := List.mem_singleton.mp hj
    exact fun heq => h (heq ▸ hi)
  lt_next := by
    intro r' hr'
    rcases List.mem_append.mp hr' with hr' | hr'
    · exact Nat.lt_of_lt_of_le (t.lt_next r' hr') (Nat.le_max_left ..)
    · rw [List.mem_singleton.mp hr']
      exact Nat.le_max_right ..

/-- The total of a weight over the rows. -/
def sum (t : Table ρ) (w : ρ → Int) : Int := (t.rows.map fun r => w r.2).sum

theorem lookup_cons {l : List (Nat × ρ)} :
    ((j, r) :: l).lookup i = if i = j then some r else l.lookup i := by
  rw [List.lookup_cons]
  by_cases h : i = j <;> simp [h, beq_eq_false_iff_ne.mpr]

theorem get_eq_some_iff : t.get i = some r ↔ (i, r) ∈ t.rows := by
  have hn := t.nodup
  rw [get]
  generalize t.rows = l at hn ⊢
  induction l with
  | nil => simp
  | cons x l ih =>
    obtain ⟨j, r'⟩ := x
    rw [List.map_cons, List.nodup_cons] at hn
    have hih : l.lookup i = some r ↔ (i, r) ∈ l := ih hn.2
    rw [lookup_cons, List.mem_cons, ← hih, Prod.mk.injEq]
    by_cases hij : i = j
    · have hnone : l.lookup i ≠ some r := fun h =>
        hn.1 (List.mem_map.mpr ⟨(i, r), hih.mp h, hij⟩)
      simp only [hij, if_true, Option.some.injEq, true_and]
      exact ⟨fun h => .inl h.symm, fun h => h.elim Eq.symm fun h => absurd (hij ▸ h) hnone⟩
    · simp [hij]

@[simp] theorem ids_update : (t.update i f).ids = t.ids := by
  simp only [ids, update, List.map_map]
  refine List.map_congr_left fun r _ => ?_
  simp only [Function.comp]
  split <;> rfl

theorem mem_ids_iff : i ∈ t.ids ↔ ∃ r, t.get i = some r := by
  simp only [get_eq_some_iff, ids, List.mem_map]
  constructor
  · rintro ⟨⟨j, r⟩, hr, rfl⟩
    exact ⟨r, hr⟩
  · rintro ⟨r, hr⟩
    exact ⟨_, hr, rfl⟩

theorem get_eq_none_iff : t.get i = none ↔ i ∉ t.ids := by
  rw [mem_ids_iff, ← Option.not_isSome_iff_eq_none, Option.isSome_iff_exists]

theorem get_erase_self : (t.erase i).get i = none := by
  rw [get_eq_none_iff, ids, List.mem_map]
  rintro ⟨r, hr, hri⟩
  simpa [hri] using (List.mem_filter.mp hr).2

theorem get_place_self (h : i ∉ t.ids) : (t.place i r h).get i = some r :=
  get_eq_some_iff.mpr (List.mem_append_right _ (List.mem_singleton.mpr rfl))

theorem get_update : (t.update i f).get j = if j = i then (t.get j).map f else t.get j := by
  simp only [get, update]
  induction t.rows with
  | nil => simp
  | cons x l ih =>
    obtain ⟨k, r⟩ := x
    by_cases hk : k = i
    · subst hk
      rw [List.map_cons, if_pos rfl, lookup_cons, lookup_cons, ih]
      split <;> rfl
    · rw [List.map_cons, if_neg hk, lookup_cons, lookup_cons, ih]
      by_cases hj : j = k
      · simp [hj, hk]
      · rw [if_neg hj, if_neg hj]

theorem sum_insert : (t.insert r).sum w = t.sum w + w r := by
  simp [sum, insert]

theorem sum_update (h : t.get i = some r) :
    (t.update i f).sum w = t.sum w + (w (f r) - w r) := by
  have hmem := get_eq_some_iff.mp h
  have hn := t.nodup
  simp only [sum, update]
  generalize t.rows = l at hmem hn ⊢
  induction l with
  | nil => cases hmem
  | cons x l ih =>
    rw [List.map_cons, List.nodup_cons] at hn
    rw [List.map_cons, List.map_cons, List.map_cons, List.sum_cons, List.sum_cons]
    rcases List.mem_cons.mp hmem with rfl | hmem
    · have hrest : (l.map fun r => if r.1 = i then (r.1, f r.2) else r) = l := by
        conv_rhs => rw [← List.map_id l]
        refine List.map_congr_left fun y hy => if_neg fun hi => hn.1 ?_
        exact List.mem_map.mpr ⟨y, hy, hi⟩
      simp only [hrest, if_true]
      omega
    · have hx : x.1 ≠ i := fun hx => hn.1 (hx ▸ List.mem_map_of_mem hmem)
      rw [ih hmem hn.2, if_neg hx]
      omega

end Table
