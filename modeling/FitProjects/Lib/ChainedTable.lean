import Mathlib.Data.List.Nodup
import Mathlib.Data.List.Basic

/-! # Hash tables with chains

A table is a list of chains of entries. It is well hashed when every entry lies in the chain that
the hash of its key selects and no chain has a key twice; then `find`, which looks into one chain,
finds exactly the entries of the whole table. An operation that works on one chain is described by
what it does to `findIn`, the search in that chain; `find_set` lifts this to the table. -/

/-- An entry of a chain. -/
structure Entry (κ : Type u) (α : Type v) where
  key : κ
  data : α
  deriving DecidableEq

namespace ChainedTable

variable {κ : Type u} {α : Type v} [DecidableEq κ] {hash : κ → Nat}
  {t : List (List (Entry κ α))} {c c' : List (Entry κ α)} {k k₀ : κ} {d : α}

/-- The data of the first entry with the key `k`. -/
def findIn (k : κ) : List (Entry κ α) → Option α
  | [] => none
  | e :: c => if k = e.key then some e.data else findIn k c

/-- The data under the key `k`, searched in the chain of its hash. -/
def find (hash : κ → Nat) (t : List (List (Entry κ α))) (k : κ) : Option α :=
  (t[hash k]?).bind (findIn k)

/-- Every entry lies in the chain of its own hash, and no chain has a key twice. -/
structure WellHashed (hash : κ → Nat) (t : List (List (Entry κ α))) : Prop where
  own : ∀ i c, t[i]? = some c → ∀ e ∈ c, hash e.key = i
  nodup : ∀ c ∈ t, (c.map Entry.key).Nodup

@[simp] theorem findIn_nil : findIn k ([] : List (Entry κ α)) = none := rfl

@[simp] theorem findIn_cons : findIn k (e :: c) = if k = e.key then some e.data else findIn k c :=
  rfl

@[simp] theorem findIn_append : findIn k (c ++ c') = (findIn k c).or (findIn k c') := by
  induction c with
  | nil => rfl
  | cons e c ih => by_cases hk : k = e.key <;> simp [hk, ih]

theorem findIn_eq_none : findIn k c = none ↔ k ∉ c.map Entry.key := by
  induction c with
  | nil => simp
  | cons e c ih => by_cases hk : k = e.key <;> simp_all

theorem findIn_isSome : (findIn k c).isSome ↔ k ∈ c.map Entry.key := by
  rw [Option.isSome_iff_ne_none, Ne, findIn_eq_none, not_not]

theorem findIn_eq_some (hc : (c.map Entry.key).Nodup) : findIn k c = some d ↔ ⟨k, d⟩ ∈ c := by
  induction c with
  | nil => simp
  | cons e c ih =>
    rw [List.map_cons, List.nodup_cons] at hc
    by_cases hk : k = e.key
    · subst hk
      rw [findIn_cons, if_pos rfl, Option.some.injEq, List.mem_cons]
      constructor
      · rintro rfl
        exact .inl rfl
      · rintro (h | h)
        · rw [← h]
        · exact absurd (List.mem_map_of_mem (f := Entry.key) h) hc.1
    · have hne : (⟨k, d⟩ : Entry κ α) ≠ e := fun h => hk (h ▸ rfl)
      simp [hk, hne, ih hc.2]

omit [DecidableEq κ] in
/-- Changing the data of one entry keeps the keys. -/
theorem keys_modify (g : α → α) (i : Nat) :
    (c.modify i fun e => { e with data := g e.data }).map Entry.key = c.map Entry.key := by
  induction c generalizing i with
  | nil => simp
  | cons e c ih => cases i <;> simp [ih]

/-- Changing the data of one entry changes what is found under its key. -/
theorem findIn_modify {g : α → α} (hc : (c.map Entry.key).Nodup) (hi : (c)[i]? = some ⟨k₀, d⟩) :
    findIn k (c.modify i fun e => { e with data := g e.data }) =
      if k = k₀ then some (g d) else findIn k c := by
  induction c generalizing i with
  | nil => simp at hi
  | cons e c ih =>
    rw [List.map_cons, List.nodup_cons] at hc
    cases i with
    | zero =>
      obtain rfl : e = ⟨k₀, d⟩ := by simpa using hi
      by_cases hk : k = k₀ <;> simp [hk]
    | succ i =>
      rw [List.getElem?_cons_succ] at hi
      rw [List.modify_succ_cons, findIn_cons, findIn_cons, ih hc.2 hi]
      have hne : e.key ≠ k₀ := fun h =>
        hc.1 (h ▸ List.mem_map_of_mem (f := Entry.key) (List.mem_of_getElem? hi))
      by_cases hk : k = e.key
      · rw [if_pos hk, if_pos hk, if_neg (hk ▸ hne)]
      · rw [if_neg hk, if_neg hk]

/-- Removing the first entry with a key removes the key from a chain without double keys. -/
theorem findIn_eraseP (hc : (c.map Entry.key).Nodup) :
    findIn k (c.eraseP fun e => e.key = k₀) = if k = k₀ then none else findIn k c := by
  induction c with
  | nil => simp
  | cons e c ih =>
    rw [List.map_cons, List.nodup_cons] at hc
    by_cases hk₀ : e.key = k₀
    · rw [List.eraseP_cons_of_pos (by simpa using hk₀), findIn_cons, ← hk₀]
      by_cases hk : k = e.key
      · rw [if_pos hk, findIn_eq_none, hk]
        exact hc.1
      · rw [if_neg hk, if_neg hk]
    · rw [List.eraseP_cons_of_neg (by simpa using hk₀), findIn_cons, findIn_cons, ih hc.2]
      by_cases hk : k = e.key
      · rw [if_pos hk, if_pos hk, if_neg (hk ▸ hk₀)]
      · rw [if_neg hk, if_neg hk]

namespace WellHashed

omit [DecidableEq κ] in
/-- No key occurs twice in the table. -/
theorem nodup_flatten (h : WellHashed hash t) : (t.flatten.map Entry.key).Nodup := by
  rw [List.map_flatten, List.nodup_flatten]
  constructor
  · intro l hl
    obtain ⟨c, hc, rfl⟩ := List.mem_map.mp hl
    exact h.nodup c hc
  · rw [List.pairwise_map, List.pairwise_iff_getElem]
    intro i j hi hj hij k hki hkj
    obtain ⟨e, he, rfl⟩ := List.mem_map.mp hki
    obtain ⟨e', he', hkey⟩ := List.mem_map.mp hkj
    have h₁ := h.own i t[i] (List.getElem?_eq_getElem hi) e he
    have h₂ := h.own j t[j] (List.getElem?_eq_getElem hj) e' he'
    rw [hkey] at h₂
    omega

/-- The search in one chain finds exactly the entries of the table. -/
theorem find_eq_some (h : WellHashed hash t) : find hash t k = some d ↔ ⟨k, d⟩ ∈ t.flatten := by
  rw [find, Option.bind_eq_some_iff, List.mem_flatten]
  constructor
  · rintro ⟨c, hc, hfind⟩
    have hmem := List.mem_of_getElem? hc
    exact ⟨c, hmem, (findIn_eq_some (h.nodup c hmem)).mp hfind⟩
  · rintro ⟨c, hmem, he⟩
    obtain ⟨i, hi⟩ := List.getElem?_of_mem hmem
    have hown : hash k = i := h.own i c hi ⟨k, d⟩ he
    exact ⟨c, hown ▸ hi, (findIn_eq_some (h.nodup c hmem)).mpr he⟩

omit [DecidableEq κ] in
theorem replicate (n : Nat) : WellHashed hash (List.replicate n ([] : List (Entry κ α))) where
  own i c hi e he := by
    obtain rfl := List.eq_of_mem_replicate (List.mem_of_getElem? hi)
    simp at he
  nodup c hc := by
    obtain rfl := List.eq_of_mem_replicate hc
    simp

omit [DecidableEq κ] in
/-- A chain may be replaced by one whose keys belong there and are distinct. -/
theorem set (h : WellHashed hash t) (hown : ∀ e ∈ c, hash e.key = i)
    (hnodup : (c.map Entry.key).Nodup) : WellHashed hash (t.set i c) where
  own j c' hj e he := by
    rw [List.getElem?_set] at hj
    split at hj
    · rename_i hij
      split at hj
      · obtain rfl := Option.some.inj hj
        exact hij ▸ hown e he
      · cases hj
    · exact h.own j c' hj e he
  nodup c' hc' := by
    rcases List.mem_or_eq_of_mem_set hc' with hc' | rfl
    · exact h.nodup c' hc'
    · exact hnodup

end WellHashed

theorem find_replicate (n : Nat) :
    find hash (List.replicate n ([] : List (Entry κ α))) k = none := by
  rw [find, List.getElem?_replicate]
  split <;> rfl

/-- What an operation changes in the chain of `k₀` is what it changes in the table. -/
theorem find_set (hc : t[hash k₀]? = some c)
    (h : ∀ k, findIn k c' = if k = k₀ then v else findIn k c) :
    find hash (t.set (hash k₀) c') k = if k = k₀ then v else find hash t k := by
  obtain ⟨hlt, -⟩ := List.getElem?_eq_some_iff.mp hc
  rw [find, List.getElem?_set]
  by_cases hk : hash k₀ = hash k
  · rw [if_pos hk, if_pos hlt, Option.bind_some, h, find, ← hk, hc, Option.bind_some]
  · have hne : k ≠ k₀ := fun heq => hk (heq ▸ rfl)
    rw [if_neg hk, if_neg hne, find]

end ChainedTable
