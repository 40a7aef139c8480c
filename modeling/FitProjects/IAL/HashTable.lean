import FitProjects.Lib.ChainedTable
import Mathlib.Data.Int.DivMod
import Mathlib.Algebra.Group.Nat.Defs

/-! # The hash table

The functions of `IAL/c016.c` without the prefix `ht`. A table is the list of its chains, one for
each index below `HTSIZE`, and a chain is the list of its items in the order of `ptrnext`. A
function returns `none` when it uses an index outside the table. The outcomes of the two `malloc`
calls of `htInsert` are arguments. The tests of the table pointer itself (`ptrht == NULL`) are left
out, the table is always there. -/

namespace HashTable

/-- A string that ends in NUL, without the NUL. -/
structure Key where
  bytes : List Int8
  ne_zero : 0 ∉ bytes
  deriving DecidableEq

/-- `struct tHTItem`; `ptrnext` is the order in the chain. -/
abbrev Item (δ : Type) := Entry Key δ

abbrev Table (δ : Type) := List (List (Item δ))

variable {δ : Type} {HTSIZE : Nat} {t : Table δ} {key k : Key} {data d : δ} {c : List (Item δ)}

/-- `hashCode`: the length and the sum wrap around in an `int`, `%` truncates towards zero. -/
def hashCode (HTSIZE : Nat) (key : Key) : Int :=
  let keylen := (key.bytes.length : Int).bmod (2 ^ 32)
  let retval := (key.bytes.take keylen.toNat).foldl
    (fun (retval : Int) b => (retval + b.toInt).bmod (2 ^ 32)) 1
  retval.tmod HTSIZE

/-- The index that a key is given lies in the table. -/
def InRange (HTSIZE : Nat) (key : Key) : Prop :=
  0 ≤ hashCode HTSIZE key ∧ hashCode HTSIZE key < HTSIZE

instance : Decidable (InRange HTSIZE key) := inferInstanceAs (Decidable (_ ∧ _))

/-- `(*ptrht)[hash]`. -/
def chain (t : Table δ) (hash : Int) : Option (List (Item δ)) :=
  if 0 ≤ hash then t[hash.toNat]? else none

/-- Assign `(*ptrht)[hash]`, or change the items that it leads to. -/
def setChain (t : Table δ) (hash : Int) (c : List (Item δ)) : Table δ := t.set hash.toNat c

/-- `htInit`. -/
def init (HTSIZE : Nat) : Table δ := List.replicate HTSIZE []

/-- The loop of `htSearch`. -/
def searchChain (key : Key) : List (Item δ) → Option (Item δ)
  | [] => none
  | item :: next => if key = item.key then some item else searchChain key next

/-- `htSearch`: the item found, if any. -/
def search (HTSIZE : Nat) (t : Table δ) (key : Key) : Option (Option (Item δ)) := do
  let c ← chain t (hashCode HTSIZE key)
  some (searchChain key c)

/-- `item->data = data` for the item that `searchChain` finds. -/
def updateChain (key : Key) (data : δ) : List (Item δ) → List (Item δ)
  | [] => []
  | item :: next =>
    if key = item.key then { item with data } :: next else item :: updateChain key data next

/-- `htInsert`; `newItem` and `newKey` tell whether the two `malloc` calls succeed. -/
def insert (HTSIZE : Nat) (t : Table δ) (key : Key) (data : δ) (newItem newKey : Bool) :
    Option (Table δ) := do
  let hash := hashCode HTSIZE key
  let item ← search HTSIZE t key
  let c ← chain t hash
  if item.isSome then some (setChain t hash (updateChain key data c))
  else if newItem && newKey then some (setChain t hash (⟨key, data⟩ :: c))
  else some t

/-- `htRead`: the data found, if any. -/
def read (HTSIZE : Nat) (t : Table δ) (key : Key) : Option (Option δ) := do
  let item ← search HTSIZE t key
  some (item.map Entry.data)

/-- The loop of `htDelete`, after the test of the first item: `item` stays, the items behind it
are `next`. -/
def deleteAfter (key : Key) (item : Item δ) : List (Item δ) → List (Item δ)
  | [] => [item]
  | nextItem :: next =>
    if nextItem.key = key then item :: next else item :: deleteAfter key nextItem next

/-- `htDelete`. -/
def delete (HTSIZE : Nat) (t : Table δ) (key : Key) : Option (Table δ) := do
  let hash := hashCode HTSIZE key
  let c ← chain t hash
  match c with
  | [] => some t
  | item :: next =>
    if item.key = key then some (setChain t hash next)
    else some (setChain t hash (deleteAfter key item next))

/-- `htClearAll`. -/
def clearAll (t : Table δ) : Table δ := t.map fun _ => []

/-! ## Chains -/

open ChainedTable

theorem searchChain_eq : searchChain key c = (findIn key c).map fun data => ⟨key, data⟩ := by
  induction c with
  | nil => rfl
  | cons item next ih =>
    by_cases hk : key = item.key
    · rw [searchChain, if_pos hk, findIn_cons, if_pos hk, hk]
      rfl
    · rw [searchChain, if_neg hk, findIn_cons, if_neg hk, ih]

theorem findIn_updateChain (h : (findIn key c).isSome) :
    findIn k (updateChain key data c) = if k = key then some data else findIn k c := by
  induction c with
  | nil => simp at h
  | cons item next ih =>
    by_cases hkey : key = item.key
    · rw [updateChain, if_pos hkey, findIn_cons, findIn_cons, hkey]
      by_cases hk : k = item.key <;> simp [hk]
    · rw [findIn_cons, if_neg hkey] at h
      rw [updateChain, if_neg hkey, findIn_cons, findIn_cons, ih h]
      by_cases hk : k = item.key
      · rw [if_pos hk, if_pos hk, if_neg (hk ▸ Ne.symm hkey)]
      · rw [if_neg hk, if_neg hk]

theorem keys_updateChain (key : Key) (data : δ) (c : List (Item δ)) :
    (updateChain key data c).map Entry.key = c.map Entry.key := by
  induction c with
  | nil => rfl
  | cons item next ih => by_cases hk : key = item.key <;> simp [updateChain, hk, ih]

theorem deleteAfter_eq {item : Item δ} {next : List (Item δ)} :
    deleteAfter key item next = item :: next.eraseP fun e => e.key = key := by
  induction next generalizing item with
  | nil => rfl
  | cons nextItem next ih => by_cases hk : nextItem.key = key <;> simp [deleteAfter, hk, ih]

/-! ## Tables -/

/-- The index of a key that is in range. -/
def index (HTSIZE : Nat) (key : Key) : Nat := (hashCode HTSIZE key).toNat

/-- The table is well hashed and holds the map. -/
structure Refines (HTSIZE : Nat) (t : Table δ) (m : Key → Option δ) : Prop where
  length : t.length = HTSIZE
  wellHashed : WellHashed (index HTSIZE) t
  inRange : ∀ item ∈ t.flatten, InRange HTSIZE item.key
  find : ∀ k, InRange HTSIZE k → ChainedTable.find (index HTSIZE) t k = m k

theorem InRange.index_lt (h : InRange HTSIZE key) : index HTSIZE key < HTSIZE := by
  have := h.1
  have := h.2
  unfold index
  omega

theorem setChain_self (hc : t[index HTSIZE key]? = some c) :
    setChain t (hashCode HTSIZE key) c = t := by
  obtain ⟨hlt, rfl⟩ := List.getElem?_eq_some_iff.mp hc
  exact List.set_getElem_self hlt

namespace Refines

variable {m : Key → Option δ}

/-- Every in-range key has its chain. -/
theorem exists_chain (h : Refines HTSIZE t m) (hkey : InRange HTSIZE key) :
    ∃ c, t[index HTSIZE key]? = some c ∧ chain t (hashCode HTSIZE key) = some c ∧
      findIn key c = m key := by
  have hlt : index HTSIZE key < t.length := by
    rw [h.length]
    exact hkey.index_lt
  obtain ⟨c, hc⟩ : ∃ c, t[index HTSIZE key]? = some c := ⟨_, List.getElem?_eq_getElem hlt⟩
  refine ⟨c, hc, ?_, ?_⟩
  · rw [chain, if_pos hkey.1]
    exact hc
  · rw [← h.find key hkey, ChainedTable.find, hc, Option.bind_some]

/-- The chain of a key is replaced by one that differs in this key only. -/
theorem setChain (h : Refines HTSIZE t m) (hkey : InRange HTSIZE key)
    (hc : t[index HTSIZE key]? = some c)
    (hfind : ∀ k, findIn k c' = if k = key then v else findIn k c)
    (hkeys : ∀ e ∈ c', e.key = key ∨ e.key ∈ c.map Entry.key) (hnodup : (c'.map Entry.key).Nodup) :
    Refines HTSIZE (setChain t (hashCode HTSIZE key) c') (fun k => if k = key then v else m k) where
  length := by simp [HashTable.setChain, h.length]
  wellHashed := by
    refine h.wellHashed.set (fun e he => ?_) hnodup
    rcases hkeys e he with hk | hk
    · rw [hk]
      rfl
    · obtain ⟨e', he', hk'⟩ := List.mem_map.mp hk
      rw [← hk']
      exact h.wellHashed.own _ _ hc e' he'
  inRange item hitem := by
    obtain ⟨c'', hc'', hmem⟩ := List.mem_flatten.mp hitem
    rcases List.mem_or_eq_of_mem_set hc'' with hc'' | rfl
    · exact h.inRange item (List.mem_flatten.mpr ⟨c'', hc'', hmem⟩)
    · rcases hkeys item hmem with hk | hk
      · exact hk ▸ hkey
      · obtain ⟨e, he, hk⟩ := List.mem_map.mp hk
        exact hk ▸ h.inRange e (List.mem_flatten.mpr ⟨c, List.mem_of_getElem? hc, he⟩)
  find k hk := by
    rw [HashTable.setChain, ← index, find_set hc hfind, h.find k hk]

theorem search (h : Refines HTSIZE t m) (hkey : InRange HTSIZE key) :
    search HTSIZE t key = some ((m key).map fun data => ⟨key, data⟩) := by
  obtain ⟨c, -, hchain, hfind⟩ := h.exists_chain hkey
  simp [HashTable.search, hchain, searchChain_eq, hfind]

theorem read (h : Refines HTSIZE t m) (hkey : InRange HTSIZE key) :
    read HTSIZE t key = some (m key) := by
  rw [HashTable.read, h.search hkey, Option.bind_eq_bind, Option.bind_some, Option.map_map]
  cases m key <;> rfl

/-- `htInsert` updates the item that is there; else it adds one if both allocations succeed. -/
theorem insert (h : Refines HTSIZE t m) (hkey : InRange HTSIZE key) (data : δ)
    (newItem newKey : Bool) :
    ∃ t', insert HTSIZE t key data newItem newKey = some t' ∧
      if (m key).isSome ∨ newItem ∧ newKey then
        Refines HTSIZE t' (fun k => if k = key then some data else m k)
      else t' = t := by
  obtain ⟨c, hc, hchain, hfind⟩ := h.exists_chain hkey
  have hnodup := h.wellHashed.nodup c (List.mem_of_getElem? hc)
  cases hm : m key with
  | some d =>
    have hins : HashTable.insert HTSIZE t key data newItem newKey =
        some (HashTable.setChain t (hashCode HTSIZE key) (updateChain key data c)) := by
      simp [HashTable.insert, h.search hkey, hchain, hm]
    refine ⟨_, hins, ?_⟩
    rw [if_pos (.inl rfl)]
    refine h.setChain hkey hc (fun k => findIn_updateChain (by rw [hfind, hm]; rfl)) ?_ ?_
    · intro e he
      exact .inr (keys_updateChain key data c ▸ List.mem_map_of_mem he)
    · rwa [keys_updateChain]
  | none =>
    by_cases hnew : newItem ∧ newKey
    · have hins : HashTable.insert HTSIZE t key data newItem newKey =
          some (HashTable.setChain t (hashCode HTSIZE key) (⟨key, data⟩ :: c)) := by
        simp [HashTable.insert, h.search hkey, hchain, hm, hnew]
      refine ⟨_, hins, ?_⟩
      rw [if_pos (.inr hnew)]
      refine h.setChain hkey hc (fun k => rfl) ?_ ?_
      · intro e he
        rcases List.mem_cons.mp he with rfl | he
        · exact .inl rfl
        · exact .inr (List.mem_map_of_mem he)
      · rw [List.map_cons, List.nodup_cons]
        exact ⟨findIn_eq_none.mp (by rw [hfind, hm]), hnodup⟩
    · have hins : HashTable.insert HTSIZE t key data newItem newKey = some t := by
        simp [HashTable.insert, h.search hkey, hchain, hm, hnew]
      exact ⟨t, hins, by simp [hnew]⟩

/-- `htDelete` removes the item with the key, and changes nothing if there is none. -/
theorem delete (h : Refines HTSIZE t m) (hkey : InRange HTSIZE key) :
    ∃ t', delete HTSIZE t key = some t' ∧
      Refines HTSIZE t' (fun k => if k = key then none else m k) ∧ (m key = none → t' = t) := by
  obtain ⟨c, hc, hchain, hfind⟩ := h.exists_chain hkey
  have hnodup := h.wellHashed.nodup c (List.mem_of_getElem? hc)
  have hdel : HashTable.delete HTSIZE t key =
      some (HashTable.setChain t (hashCode HTSIZE key) (c.eraseP fun e => e.key = key)) := by
    cases c with
    | nil => simp [HashTable.delete, hchain, setChain_self hc]
    | cons item next =>
      by_cases hk : item.key = key <;> simp [HashTable.delete, hchain, hk, deleteAfter_eq]
  refine ⟨_, hdel, ?_, ?_⟩
  · refine h.setChain hkey hc (fun k => findIn_eraseP hnodup) ?_ ?_
    · exact fun e he => .inr (List.mem_map_of_mem (List.mem_of_mem_eraseP he))
    · exact hnodup.sublist (List.eraseP_sublist.map Entry.key)
  · intro hm
    have hnone : key ∉ c.map Entry.key := findIn_eq_none.mp (hfind.trans hm)
    rw [List.eraseP_of_forall_not, setChain_self hc]
    intro e he heq
    exact hnone (of_decide_eq_true heq ▸ List.mem_map_of_mem he)

theorem init : Refines HTSIZE (init HTSIZE) (fun _ => (none : Option δ)) where
  length := List.length_replicate
  wellHashed := .replicate HTSIZE
  inRange item hitem := by simp [HashTable.init] at hitem
  find _ _ := find_replicate HTSIZE

theorem clearAll (h : Refines HTSIZE t m) : Refines HTSIZE (clearAll t) fun _ => none := by
  have heq : HashTable.clearAll t = HashTable.init HTSIZE := by
    rw [HashTable.clearAll, List.map_const', h.length, HashTable.init]
  exact heq ▸ init

end Refines

/-! ## Runs -/

/-- The calls on a table. -/
inductive Call (δ : Type)
  | init
  | insert (key : Key) (data : δ) (newItem newKey : Bool)
  | search (key : Key)
  | read (key : Key)
  | delete (key : Key)
  | clearAll

/-- The result of a call: the item of `htSearch`, the data of `htRead`. -/
inductive Result (δ : Type)
  | none
  | item (found : Option (Item δ))
  | data (found : Option δ)

namespace Call

def key? : Call δ → Option Key
  | insert key .. | search key | read key | delete key => some key
  | init | clearAll => none

def onTable (HTSIZE : Nat) (t : Table δ) : Call δ → Option (Table δ × Result δ)
  | init => some (HashTable.init HTSIZE, .none)
  | insert key data newItem newKey =>
    (HashTable.insert HTSIZE t key data newItem newKey).map fun t => (t, .none)
  | search key => (HashTable.search HTSIZE t key).map fun item => (t, .item item)
  | read key => (HashTable.read HTSIZE t key).map fun data => (t, .data data)
  | delete key => (HashTable.delete HTSIZE t key).map fun t => (t, .none)
  | clearAll => some (HashTable.clearAll t, .none)

/-- A call on a finite map. An insertion of a new key takes place if both allocations succeed. -/
def onMap (m : Key → Option δ) : Call δ → (Key → Option δ) × Result δ
  | init | clearAll => (fun _ => none, .none)
  | insert key data newItem newKey =>
    (if (m key).isSome ∨ newItem ∧ newKey then fun k => if k = key then some data else m k else m,
      .none)
  | search key => (m, .item ((m key).map fun data => ⟨key, data⟩))
  | read key => (m, .data (m key))
  | delete key => (fun k => if k = key then none else m k, .none)

end Call

/-- A sequence of calls, with their results. -/
def run (HTSIZE : Nat) (t : Table δ) : List (Call δ) → Option (Table δ × List (Result δ))
  | [] => some (t, [])
  | call :: calls => do
    let (t, result) ← call.onTable HTSIZE t
    let (t, results) ← run HTSIZE t calls
    some (t, result :: results)

/-- The same sequence on a finite map. -/
def runMap (m : Key → Option δ) : List (Call δ) → (Key → Option δ) × List (Result δ)
  | [] => (m, [])
  | call :: calls =>
    let (m, result) := call.onMap m
    let (m, results) := runMap m calls
    (m, result :: results)

theorem Refines.call {m : Key → Option δ} (h : Refines HTSIZE t m) (call : Call δ)
    (hkey : ∀ key, call.key? = some key → InRange HTSIZE key) :
    ∃ t', call.onTable HTSIZE t = some (t', (call.onMap m).2) ∧
      Refines HTSIZE t' (call.onMap m).1 := by
  cases call with
  | init => exact ⟨_, rfl, .init⟩
  | insert key data newItem newKey =>
    obtain ⟨t', hins, hm⟩ := h.insert (hkey key rfl) data newItem newKey
    refine ⟨t', by simp [Call.onTable, Call.onMap, hins], ?_⟩
    simp only [Call.onMap]
    split at hm
    · rename_i hnew
      rwa [if_pos hnew]
    · rename_i hnew
      rwa [if_neg hnew, hm]
  | search key => exact ⟨t, by simp [Call.onTable, Call.onMap, h.search (hkey key rfl)], h⟩
  | read key => exact ⟨t, by simp [Call.onTable, Call.onMap, h.read (hkey key rfl)], h⟩
  | delete key =>
    obtain ⟨t', hdel, hm, -⟩ := h.delete (hkey key rfl)
    exact ⟨t', by simp [Call.onTable, Call.onMap, hdel], hm⟩
  | clearAll => exact ⟨_, rfl, h.clearAll⟩

theorem Refines.run {m : Key → Option δ} (h : Refines HTSIZE t m) (calls : List (Call δ))
    (hkeys : ∀ call ∈ calls, ∀ key, call.key? = some key → InRange HTSIZE key) :
    ∃ t', run HTSIZE t calls = some (t', (runMap m calls).2) ∧
      Refines HTSIZE t' (runMap m calls).1 := by
  induction calls generalizing t m with
  | nil => exact ⟨t, rfl, h⟩
  | cons call calls ih =>
    rw [List.forall_mem_cons] at hkeys
    obtain ⟨t₁, hcall, h₁⟩ := h.call call hkeys.1
    obtain ⟨t₂, hrun, h₂⟩ := ih h₁ hkeys.2
    exact ⟨t₂, by simp [HashTable.run, hcall, hrun, runMap], h₂⟩

/-- From `htInit` every sequence of calls with keys in range stays within the table and gives the
results of a finite map. Afterwards every item lies in the chain of its own hash code, no key occurs
twice, the table holds the map, deleting a missing key changes nothing, and neither does an
insertion that cannot allocate. -/
theorem run_refines_finiteMap (calls : List (Call δ))
    (hkeys : ∀ call ∈ calls, ∀ key, call.key? = some key → InRange HTSIZE key) :
    ∃ t m results, run HTSIZE (init HTSIZE) calls = some (t, results) ∧
      runMap (fun _ => none) calls = (m, results) ∧
      (∀ (i : Nat) c, t[i]? = some c → ∀ item ∈ c, hashCode HTSIZE item.key = i) ∧
      (t.flatten.map Entry.key).Nodup ∧
      ∀ key, InRange HTSIZE key →
        (∀ data, m key = some data ↔ ⟨key, data⟩ ∈ t.flatten) ∧
        search HTSIZE t key = some ((m key).map fun data => ⟨key, data⟩) ∧
        read HTSIZE t key = some (m key) ∧
        (m key = none → delete HTSIZE t key = some t) ∧
        ∀ data (newItem newKey : Bool), m key = none → ¬ (newItem ∧ newKey) →
          insert HTSIZE t key data newItem newKey = some t := by
  obtain ⟨t, hrun, h⟩ := Refines.init.run calls hkeys
  refine ⟨t, _, _, hrun, rfl, ?_, h.wellHashed.nodup_flatten, fun key hkey => ?_⟩
  · intro i c hc item hitem
    have hown : index HTSIZE item.key = i := h.wellHashed.own i c hc item hitem
    have hmem := List.mem_flatten.mpr ⟨c, List.mem_of_getElem? hc, hitem⟩
    rw [← hown, index, Int.toNat_of_nonneg (h.inRange item hmem).1]
  refine ⟨fun data => ?_, h.search hkey, h.read hkey, fun hm => ?_, ?_⟩
  · rw [← h.find key hkey, h.wellHashed.find_eq_some]
  · obtain ⟨t', hdel, -, hsame⟩ := h.delete hkey
    rw [hdel, hsame hm]
  · intro data newItem newKey hm hnew
    obtain ⟨t', hins, hsame⟩ := h.insert hkey data newItem newKey
    rw [if_neg (by simp [hm, hnew])] at hsame
    rw [hins, hsame]

/-- The key `"a"`. -/
def keyA : Key := ⟨[97], by decide⟩

/-- Calls with a failed allocation, an update and a deletion. -/
def someCalls : List (Call Int) :=
  [.insert keyA 1 true false, .insert keyA 1 true true, .insert keyA 2 false false, .search keyA,
    .delete keyA, .read keyA]

theorem run_refines_finiteMap_someCalls :
    ∃ t m results, run 101 (init 101) someCalls = some (t, results) ∧
      runMap (fun _ => none) someCalls = (m, results) ∧
      (∀ (i : Nat) c, t[i]? = some c → ∀ item ∈ c, hashCode 101 item.key = i) ∧
      (t.flatten.map Entry.key).Nodup ∧
      ∀ key, InRange 101 key →
        (∀ data, m key = some data ↔ ⟨key, data⟩ ∈ t.flatten) ∧
        search 101 t key = some ((m key).map fun data => ⟨key, data⟩) ∧
        read 101 t key = some (m key) ∧
        (m key = none → delete 101 t key = some t) ∧
        ∀ data (newItem newKey : Bool), m key = none → ¬ (newItem ∧ newKey) →
          insert 101 t key data newItem newKey = some t := by
  have hkeyA : InRange 101 keyA := by decide
  exact run_refines_finiteMap someCalls (by simp [someCalls, Call.key?, hkeyA])

end HashTable
