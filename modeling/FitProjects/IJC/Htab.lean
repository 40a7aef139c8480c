import FitProjects.Lib.ChainedTable
import Mathlib.Algebra.Group.Nat.Defs

/-! # The hash table of the word counter

`htab_init`, `htab_lookup` and `htab_foreach` of `IJC/proj2`. The chains are the lists of the items
in the order of `next`; a pointer to an item is the index of its chain and its place there. The hash
function is a parameter, its value is reduced modulo the table size. Allocations succeed. -/

namespace Htab

/-- `struct htab_listitem`; `data` is `unsigned`, `next` is the order in the chain. -/
abbrev Item := Entry (List UInt8) Nat

/-- `htab_t`. -/
structure Table where
  size : Nat
  data : List (List Item)

variable {hash : List UInt8 → Nat} {t : Table} {key k : List UInt8} {c d : List Item} {n : Nat}

/-- `htab_init`, for a size of at least 1. -/
def init (size : Nat) : Table := ⟨size, List.replicate size []⟩

/-- The loop of `htab_lookup` through a chain: the place of the item with the key, which is appended
with the data 0 if there is none, and the chain. -/
def lookupChain (key : List UInt8) : List Item → Nat × List Item
  | [] => (0, [⟨key, 0⟩])
  | item :: next =>
    if item.key = key then (0, item :: next)
    else
      let (place, next) := lookupChain key next
      (place + 1, item :: next)

/-- `htab_lookup`: the index and the place of the item, and the table. -/
def lookup (hash : List UInt8 → Nat) (t : Table) (key : List UInt8) : (Nat × Nat) × Table :=
  let index := hash key % t.size
  let (place, c) := lookupChain key (t.data.getD index [])
  ((index, place), { t with data := t.data.set index c })

/-- `(item->data)++`, which wraps around. -/
def increment (t : Table) (item : Nat × Nat) : Table :=
  { t with
    data := t.data.modify item.1 fun c =>
      c.modify item.2 fun e => { e with data := (e.data + 1) % 2 ^ 32 } }

/-- `htab_foreach`: the results of `fp` on all items, chain after chain. -/
def foreach (t : Table) (fp : List UInt8 → Nat → List β) : List β :=
  t.data.flatMap fun c => c.flatMap fun item => fp item.key item.data

/-! ## Well-formed tables -/

open ChainedTable

/-- The index of a key. -/
def Table.index (hash : List UInt8 → Nat) (t : Table) (key : List UInt8) : Nat :=
  hash key % t.size

/-- The data under a key. -/
def Table.find (hash : List UInt8 → Nat) (t : Table) (key : List UInt8) : Option Nat :=
  ChainedTable.find (t.index hash) t.data key

structure Table.WF (hash : List UInt8 → Nat) (t : Table) : Prop where
  size_pos : 0 < t.size
  length : t.data.length = t.size
  wellHashed : WellHashed (t.index hash) t.data

theorem wf_init (hsize : 0 < n) : (init n).WF hash := ⟨hsize, List.length_replicate, .replicate n⟩

theorem find_init : (init n).find hash key = none := find_replicate n

namespace Table.WF

theorem exists_chain (h : t.WF hash) (key : List UInt8) :
    ∃ c, t.data[t.index hash key]? = some c ∧ (c.map Entry.key).Nodup ∧
      findIn key c = t.find hash key := by
  have hlt : t.index hash key < t.data.length := by
    rw [h.length]
    exact Nat.mod_lt _ h.size_pos
  obtain ⟨c, hc⟩ : ∃ c, t.data[t.index hash key]? = some c := ⟨_, List.getElem?_eq_getElem hlt⟩
  exact ⟨c, hc, h.wellHashed.nodup c (List.mem_of_getElem? hc), by
    rw [Table.find, ChainedTable.find, hc, Option.bind_some]⟩

/-- The chain of a key is replaced by one that differs in this key only. -/
theorem set (h : t.WF hash) (hc : t.data[t.index hash key]? = some c)
    (hfind : ∀ k, findIn k d = if k = key then v else findIn k c)
    (hkeys : ∀ k ∈ d.map Entry.key, k = key ∨ k ∈ c.map Entry.key)
    (hnodup : (d.map Entry.key).Nodup) :
    let t' : Table := { t with data := t.data.set (t.index hash key) d }
    t'.WF hash ∧ ∀ k, t'.find hash k = if k = key then v else t.find hash k := by
  refine ⟨⟨h.size_pos, by simp [h.length], h.wellHashed.set (fun e he => ?_) hnodup⟩,
    fun k => find_set hc hfind⟩
  rcases hkeys e.key (List.mem_map_of_mem he) with hk | hk
  · rw [hk]
  · obtain ⟨e', he', hk'⟩ := List.mem_map.mp hk
    rw [← hk']
    exact h.wellHashed.own _ c hc e' he'

end Table.WF

/-- The place found holds the key with the data it had, or 0. -/
theorem getElem?_lookupChain :
    (lookupChain key c).2[(lookupChain key c).1]? = some ⟨key, (findIn key c).getD 0⟩ := by
  induction c with
  | nil => rfl
  | cons item next ih =>
    by_cases hk : item.key = key
    · rw [lookupChain, if_pos hk, findIn_cons, if_pos hk.symm, ← hk]
      rfl
    · rw [lookupChain, if_neg hk, findIn_cons, if_neg (Ne.symm hk)]
      simpa using ih

theorem lookupChain_snd :
    (lookupChain key c).2 = if (findIn key c).isSome then c else c ++ [⟨key, 0⟩] := by
  induction c with
  | nil => rfl
  | cons item next ih =>
    by_cases hk : item.key = key
    · rw [lookupChain, if_pos hk, findIn_cons, if_pos hk.symm]
      rfl
    · rw [lookupChain, if_neg hk, findIn_cons, if_neg (Ne.symm hk)]
      simp only [ih]
      split <;> rfl

theorem findIn_lookupChain :
    findIn k (lookupChain key c).2 =
      if k = key then some ((findIn key c).getD 0) else findIn k c := by
  rw [lookupChain_snd]
  cases hf : findIn key c with
  | some d =>
    rw [if_pos (by rfl)]
    by_cases hk : k = key <;> simp [hk, hf]
  | none =>
    rw [if_neg (by simp), findIn_append]
    by_cases hk : k = key <;> simp [hk, hf]

theorem nodup_lookupChain (hc : (c.map Entry.key).Nodup) :
    ((lookupChain key c).2.map Entry.key).Nodup := by
  rw [lookupChain_snd]
  split
  · exact hc
  · rename_i hf
    rw [Option.not_isSome_iff_eq_none, findIn_eq_none] at hf
    rw [List.map_append, List.nodup_append]
    refine ⟨hc, by simp, fun a ha b hb => ?_⟩
    obtain rfl : b = key := by simpa using hb
    exact fun hab => hf (hab ▸ ha)

/-- `htab_lookup` returns the place of the key and changes nothing but that the key is there. -/
theorem lookup_spec (h : t.WF hash) (key : List UInt8) :
    ∃ chain place, (lookup hash t key).1 = (t.index hash key, place) ∧
      (lookup hash t key).2.data[t.index hash key]? = some chain ∧
      chain[place]? = some ⟨key, (t.find hash key).getD 0⟩ ∧
      (lookup hash t key).2.size = t.size ∧ (lookup hash t key).2.WF hash ∧
      ∀ k, (lookup hash t key).2.find hash k =
        if k = key then some ((t.find hash key).getD 0) else t.find hash k := by
  obtain ⟨c, hc, hnodup, hfind⟩ := h.exists_chain key
  have hgetD : t.data.getD (hash key % t.size) [] = c := by
    rw [List.getD_eq_getElem?_getD]
    exact congrArg (·.getD []) hc
  obtain ⟨hwf, hfind'⟩ := h.set hc (d := (lookupChain key c).2)
    (v := some ((findIn key c).getD 0)) (fun k => findIn_lookupChain) (fun k hk => by
      rw [lookupChain_snd] at hk
      split at hk
      · exact .inr hk
      · simpa [or_comm] using hk) (nodup_lookupChain hnodup)
  obtain ⟨hlt, -⟩ := List.getElem?_eq_some_iff.mp hc
  rw [← hfind]
  refine ⟨(lookupChain key c).2, (lookupChain key c).1, ?_, ?_, getElem?_lookupChain, rfl, ?_, ?_⟩
  · rw [lookup, hgetD]
    rfl
  · rw [lookup, hgetD]
    exact List.getElem?_set_self hlt
  · rw [lookup, hgetD]
    exact hwf
  · rw [lookup, hgetD]
    exact hfind'

/-- Incrementing the item at a place increments what is found under its key. -/
theorem increment_spec (h : t.WF hash) (hc : t.data[t.index hash key]? = some c)
    (hplace : (c)[place]? = some ⟨key, n⟩) :
    (increment t (t.index hash key, place)).size = t.size ∧
      (increment t (t.index hash key, place)).WF hash ∧
      ∀ k, (increment t (t.index hash key, place)).find hash k =
        if k = key then some ((n + 1) % 2 ^ 32) else t.find hash k := by
  have hnodup := h.wellHashed.nodup c (List.mem_of_getElem? hc)
  have hmodify : t.data.modify (t.index hash key) (fun c =>
      c.modify place fun e => { e with data := (e.data + 1) % 2 ^ 32 }) =
      t.data.set (t.index hash key)
        (c.modify place fun e => { e with data := (e.data + 1) % 2 ^ 32 }) := by
    rw [List.modify_eq_set, hc]
    rfl
  obtain ⟨hwf, hfind⟩ := h.set hc
    (d := c.modify place fun e => { e with data := (e.data + 1) % 2 ^ 32 })
    (fun k => findIn_modify hnodup hplace (g := fun d => (d + 1) % 2 ^ 32))
    (fun k hk => .inr (keys_modify (fun d => (d + 1) % 2 ^ 32) place ▸ hk))
    (by rw [keys_modify fun d => (d + 1) % 2 ^ 32]; exact hnodup)
  rw [increment, hmodify]
  exact ⟨rfl, hwf, hfind⟩

end Htab
