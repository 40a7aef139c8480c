import FitProjects.IJC.HtabBlocks
import FitProjects.Lib.System

/-! # Programs that use the hash table

A program calls the functions of the table one after the other and may assign the data of the items
that it was given. `malloc` gives any block that is not live, with any content, or nothing. The
table in memory is read back with `chainsOf`; as long as `htab_remove` is called for missing keys
whose backups happen to differ from the keys of the chain, the calls keep a map, and as long as no
`htab_remove` meets a key and no `htab_lookup` runs out of memory after its backup, `htab_free`
gives everything back. -/

namespace HtabMemory

open Heap ChainedTable

inductive Call
  | lookup (key : List UInt8) (keyBackup : Malloc (Nat → UInt8)) (newItem : Malloc Listitem)
      (newKey : Malloc (Nat → UInt8))
  | remove (key : List UInt8) (keyBackup : Malloc (Nat → UInt8))
  | clear
  | foreach
  | assign (item : Addr) (data : Nat)

def call (t : Ptr) (h : Heap Block) : Call → Option (Heap Block)
  | .lookup key keyBackup newItem newKey =>
    (lookup h t key keyBackup newItem newKey).map Prod.snd
  | .remove key keyBackup => remove h t key keyBackup
  | .clear => clear h t
  | .foreach => (foreach h t).map fun _ => h
  | .assign item data => setItem h (some item) fun item => { item with data }

/-- The calls on the table at `t`, from the heap that `htab_init` left. -/
def program (t : Ptr) (h : Heap Block) : System (Heap Block) Call := ⟨h, call t⟩

/-! ## The table in memory -/

/-- The items from `p` on, with their addresses. -/
def itemsFrom (h : Heap Block) : Nat → Ptr → List (Addr × Htab.Item)
  | 0, _ => []
  | _ + 1, none => []
  | fuel + 1, some a =>
    match itemAt h (some a) with
    | none => []
    | some item =>
      match stringAt h item.key with
      | none => []
      | some key => (a, ⟨key, item.data⟩) :: itemsFrom h fuel item.next

def chainsOf (h : Heap Block) (t : Ptr) : List (List (Addr × Htab.Item)) :=
  match tableAt h t with
  | none => []
  | some table => table.data.map (itemsFrom h (h.cells.length + 1))

def itemsOf (h : Heap Block) (t : Ptr) : List (Addr × Htab.Item) := (chainsOf h t).flatten

/-- The chain where a key belongs. -/
def chainOf (h : Heap Block) (t : Ptr) (key : List UInt8) : List (Addr × Htab.Item) :=
  (chainsOf h t).getD (hashFunction key (chainsOf h t).length) []

/-- The table without the addresses. -/
def tableOf (h : Heap Block) (t : Ptr) : Htab.Table :=
  ⟨(chainsOf h t).length, (chainsOf h t).map (·.map Prod.snd)⟩

/-! ## Conditions on calls -/

/-- The addresses of different blocks that are not live. -/
def Unused (h : Heap Block) (addrs : List Addr) : Prop :=
  addrs.Nodup ∧ ∀ a ∈ addrs, h.get? a = none

def address (m : Malloc β) : List Addr := (m.map Prod.fst).toList

/-- `malloc` gives unused blocks, keys are strings, and only items of the table are assigned. -/
def Call.Possible (h : Heap Block) (t : Ptr) : Call → Prop
  | .lookup key keyBackup newItem newKey =>
    0 ∉ key ∧ Unused h (address keyBackup ++ address newItem ++ address newKey)
  | .remove key keyBackup => 0 ∉ key ∧ Unused h (address keyBackup)
  | .clear | .foreach => True
  | .assign item _ => item ∈ (itemsOf h t).map Prod.fst

/-- All allocations succeed. -/
def Call.Allocates : Call → Prop
  | .lookup _ keyBackup newItem newKey => keyBackup.isSome ∧ newItem.isSome ∧ newKey.isSome
  | .remove _ keyBackup => keyBackup.isSome
  | .clear | .foreach | .assign .. => True

/-- The key is not in the table. -/
def Absent (h : Heap Block) (t : Ptr) (key : List UInt8) : Prop :=
  ∀ y ∈ chainOf h t key, y.2.key ≠ key

/-- The bytes that a new block happens to hold compare as different from the keys in the chain of
`key`, and the comparison stays in the block. -/
def Unmet (h : Heap Block) (t : Ptr) (key : List UInt8) (keyBackup : Malloc (Nat → UInt8)) : Prop :=
  ∀ b ∈ keyBackup, ∀ y ∈ chainOf h t key,
    (strcmp (y.2.key ++ [0]) (fresh (key.length + 1) b.2)).any (· ≠ 0) = true

/-- Only missing keys are removed, and their backups meet no other key. -/
def Call.Regular (h : Heap Block) (t : Ptr) : Call → Prop
  | .remove key keyBackup => Absent h t key ∧ Unmet h t key keyBackup
  | .lookup .. | .clear | .foreach | .assign .. => True

/-- `htab_remove` meets no key, and `htab_lookup` can make the item of a new key once it has made
the backup. -/
def Call.Careful (h : Heap Block) (t : Ptr) : Call → Prop
  | .lookup key keyBackup newItem newKey =>
    t.isSome → keyBackup.isSome → Absent h t key → newItem.isSome ∧ newKey.isSome
  | .remove key keyBackup => Unmet h t key keyBackup
  | .clear | .foreach | .assign .. => True

section Decidable

variable {h : Heap Block} {t : Ptr}

instance {addrs : List Addr} : Decidable (Unused h addrs) := inferInstanceAs (Decidable (_ ∧ _))

instance {key : List UInt8} : Decidable (Absent h t key) :=
  inferInstanceAs (Decidable (∀ y ∈ chainOf h t key, _))

instance {key : List UInt8} {keyBackup : Malloc (Nat → UInt8)} :
    Decidable (Unmet h t key keyBackup) :=
  inferInstanceAs (Decidable (∀ b ∈ keyBackup, ∀ y ∈ chainOf h t key, _))

instance : (c : Call) → Decidable (c.Possible h t)
  | .lookup .. | .remove .. => inferInstanceAs (Decidable (_ ∧ _))
  | .clear | .foreach => .isTrue trivial
  | .assign item _ => inferInstanceAs (Decidable (item ∈ _))

instance : (c : Call) → Decidable c.Allocates
  | .lookup .. => inferInstanceAs (Decidable (_ ∧ _))
  | .remove _ keyBackup => inferInstanceAs (Decidable (keyBackup.isSome = true))
  | .clear | .foreach | .assign .. => .isTrue trivial

instance : (c : Call) → Decidable (c.Regular h t)
  | .remove .. => inferInstanceAs (Decidable (_ ∧ _))
  | .lookup .. | .clear | .foreach | .assign .. => .isTrue trivial

instance : (c : Call) → Decidable (c.Careful h t)
  | .lookup .. => inferInstanceAs (Decidable (_ → _ → _ → _ ∧ _))
  | .remove .. => inferInstanceAs (Decidable (Unmet ..))
  | .clear | .foreach | .assign .. => .isTrue trivial

end Decidable

/-! ## The table of a representation -/

variable {h₀ h h' h₁ : Heap Block} {t a : Addr} {extra : Multiset (Addr × Block)}
  {chains : List (List Node)} {c xs ys : List Node} {x y : Node} {key k : List UInt8}
  {i fuel size : Nat}

/-- What the items hold. -/
def entries (chains : List (List Node)) : List (List Htab.Item) := chains.map (·.map (·.2.2))

/-- An item with its address. -/
def Node.item (x : Node) : Addr × Htab.Item := (x.1, x.2.2)

theorem itemsFrom_eq (hget : ∀ b ∈ chainCells none xs, h.get? b.1 = some b.2)
    (hstrings : ∀ x ∈ xs, 0 ∉ x.2.2.key) (hfuel : xs.length < fuel) :
    itemsFrom h fuel (headPtr xs none) = xs.map Node.item := by
  induction xs generalizing fuel with
  | nil =>
    obtain ⟨fuel, rfl⟩ := Nat.exists_eq_add_one.mpr (Nat.zero_lt_of_lt hfuel)
    rfl
  | cons x xs ih =>
    obtain ⟨fuel, rfl⟩ := Nat.exists_eq_add_one.mpr (Nat.zero_lt_of_lt hfuel)
    obtain ⟨hitem, hchars, htail⟩ := get_chainCells hget
    rw [List.forall_mem_cons] at hstrings
    simp only [headPtr_cons, itemsFrom, hitem, stringAt_of_get? hchars hstrings.1,
      ih htail hstrings.2 (Nat.lt_of_succ_lt_succ hfuel), List.map_cons]
    rfl

namespace Rep

theorem chainsOf_eq (hrep : Rep h₀ h t extra chains) :
    chainsOf h (some t) = chains.map (·.map Node.item) := by
  rw [chainsOf, hrep.tableAt_eq]
  refine (List.map_map).trans (List.map_congr_left fun c hc => ?_)
  obtain ⟨i, hi⟩ := List.getElem?_of_mem hc
  exact itemsFrom_eq (hrep.get_chain hi) (hrep.strings c hc) (hrep.length_chain hi)

theorem itemsOf_eq (hrep : Rep h₀ h t extra chains) :
    itemsOf h (some t) = chains.flatten.map Node.item := by
  rw [itemsOf, hrep.chainsOf_eq, List.map_flatten]

theorem tableOf_eq (hrep : Rep h₀ h t extra chains) :
    tableOf h (some t) = ⟨chains.length, entries chains⟩ := by
  rw [tableOf, hrep.chainsOf_eq, List.length_map, List.map_map]
  refine congrArg _ (List.map_congr_left fun c _ => ?_)
  rw [Function.comp_apply, List.map_map]
  rfl

theorem chainOf_eq (hrep : Rep h₀ h t extra chains) (hsize : chains.length < 2 ^ 32)
    (hc : chains[hash key % chains.length]? = some c) :
    chainOf h (some t) key = c.map Node.item := by
  rw [chainOf, hrep.chainsOf_eq, List.length_map, hashFunction_eq hsize,
    List.getD_eq_getElem?_getD, List.getElem?_map, hc]
  rfl

end Rep

/-! ## One call -/

theorem Unused.ne {as bs : List Addr} {b : Addr} (hunused : Unused h (as ++ bs)) (ha : a ∈ as)
    (hb : b ∈ bs) : a ≠ b :=
  (List.nodup_append.mp hunused.1).2.2 a ha b hb

@[simp] theorem mem_address {m : Malloc β} : a ∈ address m ↔ ∃ v, m = some (a, v) := by
  rw [address, Option.mem_toList, Option.map_eq_some_iff]
  constructor
  · rintro ⟨⟨b, v⟩, hm, rfl⟩
    exact ⟨v, hm⟩
  · rintro ⟨v, hm⟩
    exact ⟨_, hm, rfl⟩

theorem getElem?_entries (hc : chains[i]? = some c) :
    (entries chains)[i]? = some (c.map (·.2.2)) := by
  rw [entries, List.getElem?_map, hc]
  rfl

theorem entries_set (i : Nat) (c : List Node) :
    entries (chains.set i c) = (entries chains).set i (c.map (·.2.2)) := by
  rw [entries, entries, List.map_set]

namespace Rep

theorem exists_chain (hpos : 1 ≤ chains.length) (key : List UInt8) :
    ∃ c, chains[hash key % chains.length]? = some c :=
  ⟨_, List.getElem?_eq_getElem (Nat.mod_lt _ hpos)⟩

/-- `htab_lookup` gives the item of the key and does to the table what the table without addresses
says. -/
theorem lookup_eq {raw : Nat → UInt8} {newItem : Malloc Listitem} {newKey : Malloc (Nat → UInt8)}
    (hrep : Rep h₀ h t 0 chains) (hpos : 1 ≤ chains.length) (hsize : chains.length < 2 ^ 32)
    {kb : Addr} (hkey : 0 ∉ key)
    (hunused : Unused h (address (some (kb, raw)) ++ address newItem ++ address newKey))
    (hnew : Absent h (some t) key → newItem.isSome ∧ newKey.isSome) :
    ∃ a h' chains', lookup h (some t) key (some (kb, raw)) newItem newKey = some (some a, h') ∧
      Rep h₀ h' t 0 chains' ∧ chains'.length = chains.length ∧
      entries chains' = (Htab.lookup hash ⟨chains.length, entries chains⟩ key).2.data ∧
      ∃ x ∈ chains'.flatten, x.1 = a ∧ x.2.2.key = key := by
  obtain ⟨c, hc⟩ := exists_chain hpos key
  have hkb : h.get? kb = none := hunused.2 kb (by simp)
  have hentries := getElem?_entries hc
  have hlookup : (Htab.lookup hash ⟨chains.length, entries chains⟩ key).2.data =
      (entries chains).set (hash key % chains.length)
        (Htab.lookupChain key (c.map (·.2.2))).2 := by
    rw [Htab.lookup, List.getD_eq_getElem?_getD, hentries]
    rfl
  rw [hlookup, Htab.lookupChain_snd]
  have hmem : key ∈ (c.map (·.2.2)).map Entry.key ↔ ∃ x ∈ c, x.2.2.key = key := by simp
  cases hfind : c.find? (fun x => x.2.2.key = key) with
  | some x =>
    obtain ⟨h', heq, hrep'⟩ :=
      hrep.lookup_of_find raw hsize hc hkey hkb hfind newItem newKey
    have hx := List.mem_of_find?_eq_some hfind
    have hxkey : x.2.2.key = key := by simpa using List.find?_some hfind
    refine ⟨x.1, h', chains, heq, hrep', rfl, ?_, x, ?_, rfl, hxkey⟩
    · rw [if_pos (findIn_isSome.mpr (hmem.mpr ⟨x, hx, hxkey⟩))]
      obtain ⟨hi, hget⟩ := List.getElem?_eq_some_iff.mp hentries
      rw [← hget, List.set_getElem_self]
    · exact List.mem_flatten_of_mem (List.mem_of_getElem? hc) hx
  | none =>
    have hne : ∀ x ∈ c, x.2.2.key ≠ key := by simpa using List.find?_eq_none.mp hfind
    obtain ⟨hitem, hnewKey⟩ := hnew (by
      rw [Absent, hrep.chainOf_eq hsize hc, List.forall_mem_map]
      exact hne)
    obtain ⟨⟨a, rawItem⟩, rfl⟩ := Option.isSome_iff_exists.mp hitem
    obtain ⟨⟨k, rawKey⟩, rfl⟩ := Option.isSome_iff_exists.mp hnewKey
    have hakb : kb ≠ a := (List.append_assoc .. ▸ hunused).ne (by simp) (by simp)
    have hkkb : kb ≠ k := hunused.ne (by simp) (by simp)
    have hak : a ≠ k := hunused.ne (by simp) (by simp)
    obtain ⟨h', heq, hrep'⟩ := hrep.lookup_of_not_find raw rawKey rawItem hsize hc hkey hne hkb
      (hunused.2 a (by simp)) (hunused.2 k (by simp))
      hakb.symm hkkb.symm hak.symm
    obtain ⟨hi, -⟩ := List.getElem?_eq_some_iff.mp hc
    refine ⟨a, h', _, heq, hrep', by simp, ?_, (a, k, ⟨key, 0⟩), ?_, rfl, rfl⟩
    · rw [if_neg, entries_set, List.map_append]
      · rfl
      · rw [findIn_isSome, hmem]
        rintro ⟨x, hx, hxkey⟩
        exact hne x hx hxkey
    · exact List.mem_flatten_of_mem (List.mem_set hi _) (by simp)

/-- `htab_remove` of a key that it does not meet. -/
theorem remove_eq {keyBackup : Malloc (Nat → UInt8)} (hrep : Rep h₀ h t 0 chains)
    (hpos : 1 ≤ chains.length) (hsize : chains.length < 2 ^ 32)
    (hunused : Unused h (address keyBackup)) (hunmet : Unmet h (some t) key keyBackup) :
    ∃ h', remove h (some t) key keyBackup = some h' ∧ Rep h₀ h' t 0 chains := by
  obtain ⟨c, hc⟩ := exists_chain hpos key
  rcases keyBackup with _ | ⟨kb, raw⟩
  · exact ⟨h, rfl, hrep⟩
  · refine hrep.remove_of_missed hsize hc (hunused.2 kb (by simp)) fun x hx => ?_
    refine hunmet (kb, raw) rfl (Node.item x) ?_
    rw [hrep.chainOf_eq hsize hc]
    exact List.mem_map_of_mem hx

theorem exists_item (hrep : Rep h₀ h t extra chains)
    (ha : a ∈ (itemsOf h (some t)).map Prod.fst) :
    ∃ (i : Nat) (xs : List Node) (x : Node) (ys : List Node),
      chains[i]? = some (xs ++ x :: ys) ∧ x.1 = a := by
  rw [hrep.itemsOf_eq, List.map_map] at ha
  obtain ⟨x, hx, rfl⟩ := List.mem_map.mp ha
  obtain ⟨c, hc, hx⟩ := List.mem_flatten.mp hx
  obtain ⟨i, hi⟩ := List.getElem?_of_mem hc
  obtain ⟨xs, ys, rfl⟩ := List.append_of_mem hx
  exact ⟨i, xs, x, ys, hi, rfl⟩

theorem get_node (hrep : Rep h₀ h t extra chains) (hx : x ∈ chains.flatten) :
    (∃ q, h.get? x.1 = some (.item ⟨some x.2.1, x.2.2.data, q⟩)) ∧
      h.get? x.2.1 = some (.chars (x.2.2.key ++ [0])) := by
  obtain ⟨c, hc, hx⟩ := List.mem_flatten.mp hx
  obtain ⟨i, hi⟩ := List.getElem?_of_mem hc
  obtain ⟨⟨q, hitem⟩, hchars⟩ := mem_chainCells (n := none) hx
  exact ⟨⟨q, hrep.get_chain hi _ hitem⟩, hrep.get_chain hi _ hchars⟩

/-- Items at one address have one key. -/
theorem key_unique (hrep : Rep h₀ h t extra chains) (hx : x ∈ chains.flatten)
    (hy : y ∈ chains.flatten) (haddr : x.1 = y.1) : x.2.2.key = y.2.2.key := by
  obtain ⟨⟨nx, hitem⟩, hchars⟩ := hrep.get_node hx
  obtain ⟨⟨ny, hitem'⟩, hchars'⟩ := hrep.get_node hy
  rw [haddr, hitem'] at hitem
  simp only [Option.some.injEq, Block.item.injEq, Listitem.mk.injEq] at hitem
  rw [← hitem.1, hchars'] at hchars
  simpa using hchars.symm

/-- A possible, careful call succeeds, and the program still owns exactly the table. -/
theorem call_eq {c : Call} (hrep : Rep h₀ h t 0 chains) (hpos : 1 ≤ chains.length)
    (hsize : chains.length < 2 ^ 32) (hpossible : c.Possible h (some t))
    (hcareful : c.Careful h (some t)) :
    ∃ h' chains', call (some t) h c = some h' ∧ Rep h₀ h' t 0 chains' ∧
      chains'.length = chains.length := by
  cases c with
  | lookup key keyBackup newItem newKey =>
    rcases keyBackup with _ | ⟨kb, raw⟩
    · exact ⟨h, chains, rfl, hrep, rfl⟩
    · obtain ⟨a, h', chains', heq, hrep', hlen, -⟩ := hrep.lookup_eq hpos hsize hpossible.1
        hpossible.2 (hcareful rfl rfl)
      exact ⟨h', chains', by rw [call, heq, Option.map_some], hrep', hlen⟩
  | remove key keyBackup =>
    obtain ⟨h', heq, hrep'⟩ := hrep.remove_eq hpos hsize hpossible.2 hcareful
    exact ⟨h', chains, heq, hrep', rfl⟩
  | clear =>
    obtain ⟨h', heq, hrep'⟩ := hrep.clear_eq
    exact ⟨h', _, heq, hrep', List.length_replicate⟩
  | foreach => exact ⟨h, chains, by rw [call, hrep.foreach_eq, Option.map_some], hrep, rfl⟩
  | assign item data =>
    obtain ⟨i, xs, x, ys, hc, rfl⟩ := hrep.exists_item hpossible
    obtain ⟨h', heq, hrep'⟩ := hrep.assign_eq hc data
    exact ⟨h', _, heq, hrep', List.length_set⟩

end Rep

/-! ## Everything is given back -/

/-- The heap is the one from before, or holds the table beside it. -/
def Holds (h₀ h : Heap Block) : Ptr → Prop
  | none => h = h₀
  | some t => ∃ chains, Rep h₀ h t 0 chains ∧ 1 ≤ chains.length ∧ chains.length < 2 ^ 32

variable {p : Ptr} {new : Malloc (Nat → Ptr)}

theorem holds_init (hnew : Unused h₀ (address new))
    (hinit : init fuel h₀ size new = some (p, h₁)) : Holds h₀ h₁ p := by
  obtain ⟨rfl, rfl⟩ | ⟨t, rfl, hsize, hpos, hrep⟩ := init_cases hinit fun a raw hnew' =>
    hnew.2 a (mem_address.mpr ⟨raw, hnew'⟩)
  · rfl
  · exact ⟨_, hrep, by simpa using hpos, by simpa using hsize⟩

theorem Holds.call {c : Call} (hholds : Holds h₀ h p) (hpossible : c.Possible h p)
    (hcareful : c.Careful h p) : ∃ h', call p h c = some h' ∧ Holds h₀ h' p := by
  cases p with
  | none =>
    refine ⟨h, ?_, hholds⟩
    cases c with
    | assign item data =>
      have hnil : itemsOf h none = [] := rfl
      simp only [Call.Possible, hnil, List.map_nil, List.not_mem_nil] at hpossible
    | _ => rfl
  | some t =>
    obtain ⟨chains, hrep, hpos, hsize⟩ := hholds
    obtain ⟨h', chains', heq, hrep', hlen⟩ := hrep.call_eq hpos hsize hpossible hcareful
    exact ⟨h', heq, chains', hrep', hlen ▸ hpos, hlen ▸ hsize⟩

theorem Holds.free (hholds : Holds h₀ h p) :
    ∃ h', free h p = some h' ∧ ∀ a, h'.get? a = h₀.get? a := by
  cases p with
  | none => exact ⟨h, rfl, fun a => hholds ▸ rfl⟩
  | some t =>
    obtain ⟨chains, hrep, -⟩ := hholds
    exact hrep.free_eq

/-- From `htab_init` on, in every program whose calls are careful, no call frees or uses a block
that is not live, and `htab_free` then leaves the blocks from before the program. -/
theorem blocks_given_back (hnew : Unused h₀ (address new))
    (hinit : init fuel h₀ size new = some (p, h₁))
    (hrun : (program p h₁).ReachableUnder (fun h c => c.Possible h p ∧ c.Careful h p) h) :
    (∀ c : Call, c.Possible h p → c.Careful h p → ∃ h', (program p h₁).step h c = some h') ∧
      ∃ h', free h p = some h' ∧ ∀ a, h'.get? a = h₀.get? a := by
  have hholds : Holds h₀ h p := by
    refine hrun.invariant (I := fun h => Holds h₀ h p) (holds_init hnew hinit)
      fun hholds hc hstep => ?_
    obtain ⟨h', heq, hholds'⟩ := hholds.call hc.1 hc.2
    rwa [← Option.some.inj (heq.symm.trans hstep)]
  refine ⟨fun c hpossible hcareful => ?_, hholds.free⟩
  obtain ⟨h', heq, -⟩ := hholds.call hpossible hcareful
  exact ⟨h', heq⟩

/-- A table of size 3 in an empty memory. -/
def newTable : Heap Block := Heap.empty.insert 0 (.table ⟨3, [none, none, none]⟩)

/-- A key is stored and asked for again, with bytes that `malloc` found. -/
def someLookups : List Call :=
  [.lookup [97] (some (1, fun _ => 7)) (some (2, ⟨none, 5, some 2⟩)) (some (3, fun _ => 9)),
    .lookup [97] (some (4, fun _ => 7)) none none]

theorem blocks_given_back_lookups :
    ∃ h, ((program (some 0) newTable).restrict fun h c =>
        c.Possible h (some 0) ∧ c.Careful h (some 0)).runs newTable someLookups = some h ∧
      ∃ h', free h (some 0) = some h' ∧ ∀ a, h'.get? a = none := by
  have hinit : init 4 .empty 3 (some (0, fun _ => some 8)) = some (some 0, newTable) := rfl
  obtain ⟨h, hruns⟩ : ∃ h, ((program (some 0) newTable).restrict fun h c =>
      c.Possible h (some 0) ∧ c.Careful h (some 0)).runs newTable someLookups = some h := ⟨_, rfl⟩
  exact ⟨h, hruns, (blocks_given_back (by decide) hinit
    (System.Reachable.runs .init hruns).of_restrict).2⟩

/-- When the backup of a stored key happens to be equal to it, `htab_remove` frees the backup
twice. -/
theorem backup_freed_twice :
    ∃ h, ((program (some 0) newTable).restrict fun h c => c.Possible h (some 0)).runs newTable
        someLookups = some h ∧
      (Call.remove [97] (some (5, fun i => if i = 0 then 97 else 0))).Possible h (some 0) ∧
      (program (some 0) newTable).step h
        (.remove [97] (some (5, fun i => if i = 0 then 97 else 0))) = none :=
  ⟨_, rfl, by decide, rfl⟩

/-! ## The map -/

/-- What a call has to do to the map that the table holds, and the results of `htab_lookup` and
`htab_foreach`. -/
def Call.Spec (h : Heap Block) (t : Ptr) : Call → Prop
  | .lookup key keyBackup newItem newKey =>
    ∃ a h', HtabMemory.lookup h t key keyBackup newItem newKey = some (some a, h') ∧
      let data := ((tableOf h t).find hash key).getD 0
      (∀ y, y ∈ itemsOf h' t ∧ y.2.key = key ↔ y = (a, ⟨key, data⟩)) ∧
      ∀ k, (tableOf h' t).find hash k =
        if k = key then some data else (tableOf h t).find hash k
  | .remove key keyBackup =>
    ∃ h', HtabMemory.remove h t key keyBackup = some h' ∧
      ∀ k, (tableOf h' t).find hash k = if k = key then none else (tableOf h t).find hash k
  | .clear => ∃ h', HtabMemory.clear h t = some h' ∧ itemsOf h' t = [] ∧
      ∀ k, (tableOf h' t).find hash k = none
  | .foreach => ∃ calls, HtabMemory.foreach h t = some calls ∧ calls.Nodup ∧
      ∀ k d, (k, d) ∈ calls ↔ (tableOf h t).find hash k = some d
  | .assign item data => ∃ h', setItem h (some item) (fun item => { item with data }) = some h' ∧
      ∀ key d, (item, ⟨key, d⟩) ∈ itemsOf h t →
        ∀ k, (tableOf h' t).find hash k =
          if k = key then some data else (tableOf h t).find hash k

/-- The table is well formed and all that the program owns. -/
structure Good (h₀ h : Heap Block) (t : Addr) (size : Nat) (chains : List (List Node)) : Prop where
  rep : Rep h₀ h t 0 chains
  length : chains.length = size
  pos : 1 ≤ size
  lt : size < 2 ^ 32
  wf : Htab.Table.WF hash ⟨size, entries chains⟩

namespace Good

variable {keyBackup newKey : Malloc (Nat → UInt8)} {newItem : Malloc Listitem}

theorem tableOf_eq (hgood : Good h₀ h t size chains) :
    tableOf h (some t) = ⟨size, entries chains⟩ := by
  rw [hgood.rep.tableOf_eq, hgood.length]

/-- No two items have the same key. -/
theorem item_unique (hgood : Good h₀ h t size chains) (hx : x ∈ chains.flatten)
    {y : Addr × Htab.Item} (hy : y ∈ itemsOf h (some t)) (hkey : y.2.key = x.2.2.key) :
    y = Node.item x := by
  rw [hgood.rep.itemsOf_eq] at hy
  obtain ⟨z, hz, rfl⟩ := List.mem_map.mp hy
  have hnodup := hgood.wf.wellHashed.nodup_flatten
  have hkeys : (entries chains).flatten.map Entry.key = chains.flatten.map (·.2.2.key) := by
    rw [entries, ← List.map_flatten, List.map_map]
    rfl
  rw [hkeys] at hnodup
  rw [List.inj_on_of_nodup_map hnodup hz hx hkey]

theorem mem_flatten_iff (hgood : Good h₀ h t size chains) {d : Nat} :
    (tableOf h (some t)).find hash k = some d ↔ ⟨k, d⟩ ∈ (entries chains).flatten := by
  rw [hgood.tableOf_eq]
  exact hgood.wf.wellHashed.find_eq_some

theorem find_of_mem (hgood : Good h₀ h t size chains) (hx : x ∈ chains.flatten) :
    (tableOf h (some t)).find hash x.2.2.key = some x.2.2.data := by
  rw [hgood.mem_flatten_iff, entries, ← List.map_flatten]
  exact List.mem_map_of_mem (f := fun x : Node => x.2.2) hx

theorem lookup (hgood : Good h₀ h t size chains)
    (hpossible : (Call.lookup key keyBackup newItem newKey).Possible h (some t))
    (hallocates : (Call.lookup key keyBackup newItem newKey).Allocates) :
    (Call.lookup key keyBackup newItem newKey).Spec h (some t) ∧
      ∀ h', HtabMemory.call (some t) h (.lookup key keyBackup newItem newKey) = some h' →
        ∃ chains', Good h₀ h' t size chains' := by
  obtain ⟨⟨kb, raw⟩, rfl⟩ := Option.isSome_iff_exists.mp hallocates.1
  obtain ⟨a, h', chains', heq, hrep', hlen, hentries, x, hx, hxa, hxkey⟩ :=
    hgood.rep.lookup_eq (hgood.length ▸ hgood.pos) (hgood.length ▸ hgood.lt) hpossible.1
      hpossible.2 fun _ => hallocates.2
  obtain ⟨chain, place, -, -, -, -, hwf, hfind⟩ := Htab.lookup_spec hgood.wf key
  rw [hgood.length] at hlen hentries
  have htable : (⟨size, entries chains'⟩ : Htab.Table) =
      (Htab.lookup hash ⟨size, entries chains⟩ key).2 := by
    rw [hentries]
    rfl
  have hgood' : Good h₀ h' t size chains' :=
    ⟨hrep', hlen, hgood.pos, hgood.lt, htable ▸ hwf⟩
  have hfind' : ∀ k, (tableOf h' (some t)).find hash k =
      if k = key then some (((tableOf h (some t)).find hash key).getD 0)
      else (tableOf h (some t)).find hash k := by
    intro k
    rw [hgood'.tableOf_eq, htable, hfind, hgood.tableOf_eq]
  refine ⟨⟨a, h', heq, fun y => ?_, hfind'⟩, fun h'' hcall => ?_⟩
  · have hdata : Node.item x = (a, ⟨key, ((tableOf h (some t)).find hash key).getD 0⟩) := by
      have hxfind := hgood'.find_of_mem hx
      rw [hxkey, hfind', if_pos rfl] at hxfind
      rw [Option.some.inj hxfind, ← hxa, ← hxkey]
      rfl
    rw [← hdata]
    constructor
    · rintro ⟨hy, hkey⟩
      exact hgood'.item_unique hx hy (hkey.trans hxkey.symm)
    · rintro rfl
      rw [hgood'.rep.itemsOf_eq]
      exact ⟨List.mem_map_of_mem hx, hxkey⟩
  · rw [HtabMemory.call, heq, Option.map_some, Option.some.injEq] at hcall
    exact ⟨chains', hcall ▸ hgood'⟩

theorem find_eq_none (hgood : Good h₀ h t size chains) :
    (tableOf h (some t)).find hash key = none ↔ Absent h (some t) key := by
  have hlt : chains.length < 2 ^ 32 := hgood.length ▸ hgood.lt
  obtain ⟨c, hc⟩ := Rep.exists_chain (hgood.length ▸ hgood.pos) key
  have hfind : (tableOf h (some t)).find hash key = findIn key (c.map (·.2.2)) := by
    rw [hgood.rep.tableOf_eq, Htab.Table.find, ChainedTable.find]
    exact congrArg (·.bind (findIn key)) (getElem?_entries hc)
  rw [hfind, findIn_eq_none, Absent, hgood.rep.chainOf_eq hlt hc, List.forall_mem_map]
  simp [Node.item]

theorem remove (hgood : Good h₀ h t size chains)
    (hpossible : (Call.remove key keyBackup).Possible h (some t))
    (hregular : (Call.remove key keyBackup).Regular h (some t)) :
    (Call.remove key keyBackup).Spec h (some t) ∧
      ∀ h', HtabMemory.call (some t) h (.remove key keyBackup) = some h' →
        ∃ chains', Good h₀ h' t size chains' := by
  obtain ⟨h', heq, hrep'⟩ := hgood.rep.remove_eq (hgood.length ▸ hgood.pos)
    (hgood.length ▸ hgood.lt) hpossible.2 hregular.2
  have hgood' : Good h₀ h' t size chains :=
    ⟨hrep', hgood.length, hgood.pos, hgood.lt, hgood.wf⟩
  refine ⟨⟨h', heq, fun k => ?_⟩, fun h'' hcall => ⟨chains, ?_⟩⟩
  · rw [hgood'.tableOf_eq, ← hgood.tableOf_eq]
    split
    · rename_i hk
      rw [hk]
      exact hgood.find_eq_none.mpr hregular.1
    · rfl
  · rwa [← Option.some.inj (heq.symm.trans hcall)]

/-- Exactly the regular calls of `htab_remove` do what they have to do. -/
theorem remove_iff (hgood : Good h₀ h t size chains)
    (hpossible : (Call.remove key keyBackup).Possible h (some t)) :
    (Call.remove key keyBackup).Spec h (some t) ↔
      (Call.remove key keyBackup).Regular h (some t) := by
  have hlt : chains.length < 2 ^ 32 := hgood.length ▸ hgood.lt
  constructor
  · rintro ⟨h', heq, hfind⟩
    have hunmet : Unmet h (some t) key keyBackup := by
      intro b hb y hy
      obtain rfl := Option.mem_def.mp hb
      obtain ⟨c, hc⟩ := Rep.exists_chain (hgood.length ▸ hgood.pos) key
      by_contra hmet
      have hnone := hgood.rep.remove_of_not_missed b.2 hlt hc
        (hpossible.2.2 b.1 (mem_address.mpr ⟨b.2, rfl⟩)) fun hmissed => hmet ?_
      · rw [hnone] at heq
        cases heq
      · rw [hgood.rep.chainOf_eq hlt hc] at hy
        obtain ⟨x, hx, rfl⟩ := List.mem_map.mp hy
        exact hmissed x hx
    obtain ⟨h'', heq', hrep⟩ := hgood.rep.remove_eq (hgood.length ▸ hgood.pos) hlt
      hpossible.2 hunmet
    obtain rfl := Option.some.inj (heq'.symm.trans heq)
    have hgood' : Good h₀ h'' t size chains :=
      ⟨hrep, hgood.length, hgood.pos, hgood.lt, hgood.wf⟩
    refine ⟨hgood.find_eq_none.mp ?_, hunmet⟩
    rw [hgood.tableOf_eq, ← hgood'.tableOf_eq, hfind, if_pos rfl]
  · exact fun hregular => (hgood.remove hpossible hregular).1

theorem clear (hgood : Good h₀ h t size chains) :
    Call.clear.Spec h (some t) ∧ ∀ h', HtabMemory.call (some t) h .clear = some h' →
      ∃ chains', Good h₀ h' t size chains' := by
  obtain ⟨h', heq, hrep'⟩ := hgood.rep.clear_eq
  rw [hgood.length] at hrep'
  have hentries : entries (List.replicate size []) = List.replicate size [] := by
    rw [entries, List.map_replicate]
    rfl
  have hgood' : Good h₀ h' t size (List.replicate size []) :=
    ⟨hrep', List.length_replicate, hgood.pos, hgood.lt, hentries ▸ Htab.wf_init hgood.pos⟩
  refine ⟨⟨h', heq, ?_, fun k => ?_⟩, fun h'' hcall => ⟨List.replicate size [], ?_⟩⟩
  · rw [hrep'.itemsOf_eq]
    simp
  · rw [hgood'.tableOf_eq, hentries]
    exact Htab.find_init
  · rwa [← Option.some.inj (heq.symm.trans hcall)]

theorem foreach (hgood : Good h₀ h t size chains) : Call.foreach.Spec h (some t) := by
  have hcalls : chains.flatMap Rep.calls =
      (entries chains).flatten.map fun e => (e.key, e.data) := by
    rw [entries, ← List.map_flatten, List.map_map, List.map_flatten]
    rfl
  refine ⟨_, hgood.rep.foreach_eq, ?_, fun k d => ?_⟩
  · have hnodup := hgood.wf.wellHashed.nodup_flatten
    rw [hcalls]
    refine List.Nodup.of_map Prod.fst ?_
    rw [List.map_map]
    exact hnodup
  · rw [hgood.mem_flatten_iff, hcalls, List.mem_map]
    constructor
    · rintro ⟨e, he, heq⟩
      cases heq
      exact he
    · exact fun he => ⟨_, he, rfl⟩

theorem modify_middle (f : α → α) (y : α) (xs ys : List α) :
    (xs ++ y :: ys).modify xs.length f = xs ++ f y :: ys := by
  induction xs with
  | nil => rfl
  | cons x xs ih => rw [List.cons_append, List.length_cons, List.modify_succ_cons, ih]; rfl

/-- Assigning the data of an item changes the map at its key. -/
theorem exists_assign (hgood : Good h₀ h t size chains)
    (hc : chains[i]? = some (xs ++ x :: ys)) (data : Nat) :
    ∃ h' chains', setItem h (some x.1) (fun item => { item with data }) = some h' ∧
      Good h₀ h' t size chains' ∧ ∀ k, (tableOf h' (some t)).find hash k =
        if k = x.2.2.key then some data else (tableOf h (some t)).find hash k := by
  obtain ⟨h', heq, hrep'⟩ := hgood.rep.assign_eq hc data
  have hentries := getElem?_entries hc
  rw [List.map_append, List.map_cons] at hentries
  have hindex : hash x.2.2.key % size = i :=
    hgood.wf.wellHashed.own i _ hentries x.2.2 (by simp)
  subst hindex
  have hnodup := hgood.wf.wellHashed.nodup _ (List.mem_of_getElem? hentries)
  have hplace : (xs.map (·.2.2) ++ x.2.2 :: ys.map (·.2.2))[xs.length]? =
      some ⟨x.2.2.key, x.2.2.data⟩ := by
    rw [List.getElem?_append_right (by simp), List.length_map, Nat.sub_self]
    rfl
  have hmodify : (xs.map (·.2.2) ++ x.2.2 :: ys.map (·.2.2)).modify xs.length
      (fun e => { e with data }) =
      (xs ++ (x.1, x.2.1, { x.2.2 with data }) :: ys).map (·.2.2) := by
    have := modify_middle (fun e : Htab.Item => { e with data }) x.2.2 (xs.map (·.2.2))
      (ys.map (·.2.2))
    rw [List.length_map] at this
    rw [this, List.map_append, List.map_cons]
  obtain ⟨hwf, hfind⟩ := hgood.wf.set hentries
    (fun k => findIn_modify (g := fun _ => data) hnodup hplace)
    (fun k hk => .inr (keys_modify (fun _ => data) xs.length ▸ hk))
    (by rw [keys_modify fun _ => data]; exact hnodup)
  have hgood' : Good h₀ h' t size _ :=
    ⟨hrep', List.length_set.trans hgood.length, hgood.pos, hgood.lt,
      entries_set .. ▸ hmodify ▸ hwf⟩
  refine ⟨h', _, heq, hgood', fun k => ?_⟩
  rw [hgood'.tableOf_eq, entries_set, ← hmodify, hgood.tableOf_eq]
  exact hfind k

theorem assign {item : Addr} {data : Nat} (hgood : Good h₀ h t size chains)
    (hpossible : (Call.assign item data).Possible h (some t)) :
    (Call.assign item data).Spec h (some t) ∧
      ∀ h', HtabMemory.call (some t) h (.assign item data) = some h' →
        ∃ chains', Good h₀ h' t size chains' := by
  obtain ⟨i, xs, x, ys, hc, rfl⟩ := hgood.rep.exists_item hpossible
  obtain ⟨h', chains', heq, hgood', hfind⟩ := hgood.exists_assign hc data
  have hx : x ∈ chains.flatten := List.mem_flatten_of_mem (List.mem_of_getElem? hc) (by simp)
  refine ⟨⟨h', heq, fun key d hmem k => ?_⟩, fun h'' hcall => ⟨chains', ?_⟩⟩
  · rw [hgood.rep.itemsOf_eq] at hmem
    obtain ⟨y, hy, hitem⟩ := List.mem_map.mp hmem
    obtain ⟨haddr, hkey⟩ : y.1 = x.1 ∧ y.2.2 = ⟨key, d⟩ := Prod.mk.inj hitem
    rw [hfind, hgood.rep.key_unique hx hy haddr.symm, hkey]
  · rwa [← Option.some.inj (heq.symm.trans hcall)]

/-- What a regular call does. -/
theorem call {c : Call} (hgood : Good h₀ h t size chains) (hpossible : c.Possible h (some t))
    (hallocates : c.Allocates) (hregular : c.Regular h (some t)) :
    c.Spec h (some t) ∧ ∀ h', HtabMemory.call (some t) h c = some h' →
      ∃ chains', Good h₀ h' t size chains' := by
  cases c with
  | lookup => exact hgood.lookup hpossible hallocates
  | remove => exact hgood.remove hpossible hregular
  | clear => exact hgood.clear
  | foreach =>
    refine ⟨hgood.foreach, fun h' hcall => ⟨chains, ?_⟩⟩
    rw [HtabMemory.call, hgood.rep.foreach_eq, Option.map_some, Option.some.injEq] at hcall
    exact hcall ▸ hgood
  | assign => exact hgood.assign hpossible

theorem spec_iff {c : Call} (hgood : Good h₀ h t size chains) (hpossible : c.Possible h (some t))
    (hallocates : c.Allocates) : c.Spec h (some t) ↔ c.Regular h (some t) := by
  cases c with
  | remove => exact hgood.remove_iff hpossible
  | lookup | clear | foreach | assign =>
    exact ⟨fun _ => trivial, fun _ => (hgood.call hpossible hallocates trivial).1⟩

/-- Every item lies in the list of its own index. -/
theorem own (hgood : Good h₀ h t size chains) {c : List (Addr × Htab.Item)} {y : Addr × Htab.Item}
    (hc : (chainsOf h (some t))[i]? = some c) (hy : y ∈ c) : hashFunction y.2.key size = i := by
  rw [hgood.rep.chainsOf_eq, List.getElem?_map, Option.map_eq_some_iff] at hc
  obtain ⟨d, hd, rfl⟩ := hc
  obtain ⟨x, hx, rfl⟩ := List.mem_map.mp hy
  rw [hashFunction_eq hgood.lt]
  exact hgood.wf.wellHashed.own i _ (getElem?_entries hd) x.2.2 (List.mem_map_of_mem hx)

theorem nodup_keys (hgood : Good h₀ h t size chains) :
    ((itemsOf h (some t)).map fun y => y.2.key).Nodup := by
  have hnodup := hgood.wf.wellHashed.nodup_flatten
  rw [entries, ← List.map_flatten, List.map_map] at hnodup
  rw [hgood.rep.itemsOf_eq, List.map_map]
  exact hnodup

end Good

/-- From `htab_init` on, in every program whose allocations succeed and which removes missing keys
only, with backups that meet no key, every item lies in the list of its own index, no key occurs
twice, and exactly such calls do to the map what they have to do. -/
theorem calls_keep_map (hpos : 1 ≤ size) (hsize : size < 2 ^ 32) (hfuel : size < fuel)
    (ht : h₀.get? t = none) (raw : Nat → Ptr) :
    ∃ h₁, init fuel h₀ size (some (t, raw)) = some (some t, h₁) ∧
      ∀ h, (program (some t) h₁).ReachableUnder (fun h c =>
          c.Possible h (some t) ∧ c.Allocates ∧ c.Regular h (some t)) h →
        (chainsOf h (some t)).length = size ∧
        (∀ i c, (chainsOf h (some t))[i]? = some c → ∀ y ∈ c, hashFunction y.2.key size = i) ∧
        ((itemsOf h (some t)).map fun y => y.2.key).Nodup ∧
        ∀ c : Call, c.Possible h (some t) → c.Allocates →
          (c.Spec h (some t) ↔ c.Regular h (some t)) := by
  refine ⟨_, (init_eq hpos hsize raw).trans (if_pos hfuel), fun h hrun => ?_⟩
  have hgood : ∃ chains, Good h₀ h t size chains := by
    refine hrun.invariant (I := fun h => ∃ chains, Good h₀ h t size chains) ?_ ?_
    · have hentries : entries (List.replicate size []) = List.replicate size [] := by
        rw [entries, List.map_replicate]
        rfl
      exact ⟨_, rep_init ht size, List.length_replicate, hpos, hsize,
        hentries ▸ Htab.wf_init hpos⟩
    · rintro h c h' ⟨chains, hgood⟩ ⟨hpossible, hallocates, hregular⟩ hstep
      exact (hgood.call hpossible hallocates hregular).2 h' hstep
  obtain ⟨chains, hgood⟩ := hgood
  refine ⟨?_, fun i c hc y hy => hgood.own hc hy, hgood.nodup_keys,
    fun c hpossible hallocates => hgood.spec_iff hpossible hallocates⟩
  rw [hgood.rep.chainsOf_eq, List.length_map, hgood.length]

/-- A key is stored and given data, and a key of the same chain is asked to be removed. -/
def someCalls : List Call :=
  [.lookup [97] (some (1, fun _ => 7)) (some (2, ⟨none, 5, some 2⟩)) (some (3, fun _ => 9)),
    .assign 2 41, .remove [100] (some (1, fun _ => 7)), .foreach]

theorem calls_keep_map_someCalls :
    ∃ h, ((program (some 0) newTable).restrict fun h c =>
        c.Possible h (some 0) ∧ c.Allocates ∧ c.Regular h (some 0)).runs newTable someCalls = some h ∧
      (tableOf h (some 0)).find hash [97] = some 41 ∧
      ((itemsOf h (some 0)).map fun y => y.2.key).Nodup ∧
      (Call.foreach).Spec h (some 0) := by
  have hempty : Heap.get? (.empty : Heap Block) 0 = none := rfl
  obtain ⟨h₁, hinit, hruns⟩ := calls_keep_map (by decide : 1 ≤ 3) (by decide)
    (by decide : 3 < 4) hempty fun _ => some 8
  obtain rfl : newTable = h₁ := congrArg Prod.snd (Option.some.inj hinit)
  obtain ⟨h, hstates, hfind⟩ := System.exists_runs (s := newTable) (l := someCalls)
    (M := (program (some 0) newTable).restrict fun h c =>
      c.Possible h (some 0) ∧ c.Allocates ∧ c.Regular h (some 0))
    (p := fun h => (tableOf h (some 0)).find hash [97] = some 41) (by decide)
  obtain ⟨-, -, hnodup, hspec⟩ := hruns h (System.Reachable.runs .init hstates).of_restrict
  exact ⟨h, hstates, of_decide_eq_true hfind, hnodup,
    (hspec .foreach trivial trivial).mpr trivial⟩

/-- When the backup of a stored key happens to differ from it, the key stays in the table. -/
theorem removed_key_stays :
    ∃ h h', ((program (some 0) newTable).restrict fun h c =>
        c.Possible h (some 0) ∧ c.Allocates).runs newTable (someCalls.take 2) = some h ∧
      (Call.remove [97] (some (4, fun _ => 98))).Possible h (some 0) ∧
      (Call.remove [97] (some (4, fun _ => 98))).Allocates ∧
      remove h (some 0) [97] (some (4, fun _ => 98)) = some h' ∧
      (tableOf h' (some 0)).find hash [97] = some 41 :=
  ⟨_, _, rfl, by decide, rfl, rfl, by decide⟩

end HtabMemory
