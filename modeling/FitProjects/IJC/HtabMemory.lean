import FitProjects.IJC.Htab
import FitProjects.Lib.CString
import FitProjects.Lib.Ownership

/-! # The hash table in memory

The functions of `IJC/proj2` on a heap of blocks, without the prefix `htab_`. A function returns
`none` when it frees a block that is not live, uses a block that is not live or goes past the end
of one. What each `malloc` gives is an argument: nothing, or the address of the new block with the
content that it happens to have. Keys are never `NULL` and are read before anything is written,
so they are values. A loop through a chain is bounded by the number of live blocks. -/

namespace HtabMemory

/-- `struct htab_listitem`. -/
structure Listitem where
  key : Ptr
  data : Nat
  next : Ptr

/-- `htab_t`. -/
structure HtabT where
  size : Nat
  data : List Ptr

inductive Block
  | chars (content : List UInt8)
  | item (item : Listitem)
  | table (table : HtabT)

/-- The result of a `malloc`: `NULL`, or a block with its first content. -/
abbrev Malloc (β : Type) := Option (Addr × β)

/-- The `n` bytes of a new block. -/
def fresh (n : Nat) (raw : Nat → UInt8) : List UInt8 := (List.range n).map raw

def charsAt (h : Heap Block) (p : Ptr) : Option (List UInt8) :=
  match h.read p with
  | some (.chars content) => some content
  | _ => none

/-- The string that a pointer points to; its NUL has to lie in the block. -/
def stringAt (h : Heap Block) (p : Ptr) : Option (List UInt8) := do
  let content ← charsAt h p
  if 0 ∈ content then some (cstring content) else none

def itemAt (h : Heap Block) (p : Ptr) : Option Listitem :=
  match h.read p with
  | some (.item item) => some item
  | _ => none

def tableAt (h : Heap Block) (p : Ptr) : Option HtabT :=
  match h.read p with
  | some (.table table) => some table
  | _ => none

/-- Assign fields of the item at `p`. -/
def setItem (h : Heap Block) (p : Ptr) (f : Listitem → Listitem) : Option (Heap Block) := do
  let a ← p
  let item ← itemAt h p
  some (h.insert a (.item (f item)))

/-- `t->data[index] = q`. -/
def setData (h : Heap Block) (t : Ptr) (index : Nat) (q : Ptr) : Option (Heap Block) := do
  let a ← t
  let table ← tableAt h t
  if index < table.data.length then
    some (h.insert a (.table { table with data := table.data.set index q }))
  else none

/-- `strcmp`, which fails when it reads past the end of a block. -/
def strcmp : List UInt8 → List UInt8 → Option Int
  | a :: s₁, b :: s₂ =>
    if a ≠ b then some (a.toNat - b.toNat) else if a = 0 then some 0 else strcmp s₁ s₂
  | _, _ => none

/-- The content of `dest` after `strcpy` of a string. -/
def strcpy (dest src : List UInt8) : Option (List UInt8) :=
  if src.length < dest.length then some (src ++ 0 :: dest.drop (src.length + 1)) else none

/-- The loop of `hash_function`. -/
def hash (str : List UInt8) : Nat := str.foldl (fun h p => (65599 * h + p.toNat) % 2 ^ 32) 0

/-- `hash_function`; `htab_size` is `unsigned`. -/
def hashFunction (str : List UInt8) (htab_size : Nat) : Nat := hash str % (htab_size % 2 ^ 32)

/-- The loop of `htab_init`, whose `i` is `unsigned`; `none` when it is still running. -/
def initLoop (size : Nat) : Nat → Nat → List Ptr → Option (List Ptr)
  | 0, _, _ => none
  | fuel + 1, i, data =>
    if i < size then initLoop size fuel ((i + 1) % 2 ^ 32) (data.set i none) else some data

/-- `htab_init`. -/
def init (fuel : Nat) (h : Heap Block) (size : Nat) (new_htab : Malloc (Nat → Ptr)) :
    Option (Ptr × Heap Block) :=
  if size < 1 then some (none, h)
  else
    match new_htab with
    | none => some (none, h)
    | some (a, raw) => do
      let data ← initLoop size fuel 0 ((List.range size).map raw)
      some (some a, h.insert a (.table ⟨size, data⟩))

/-- `hitem_init`. -/
def hitemInit (h : Heap Block) (key : Ptr) (data : Nat) (newItem : Malloc Listitem)
    (newKey : Malloc (Nat → UInt8)) : Option (Ptr × Heap Block) :=
  match newItem, newKey with
  | none, _ => some (none, h)
  | some (a, raw), none => do
    let h ← setItem (h.insert a (.item raw)) (some a) fun item => { item with key := none }
    let h ← h.free (some a)
    some (none, h)
  | some (a, raw), some (k, rawKey) => do
    let h := h.insert a (.item raw)
    let str ← stringAt h key
    let content ← strcpy (fresh (str.length + 1) rawKey) str
    let h := h.insert k (.chars content)
    let h ← setItem h (some a) fun item => { item with key := some k, data, next := none }
    some (some a, h)

/-- `hitem_free`. -/
def hitemFree (h : Heap Block) (item : Ptr) : Option (Heap Block) :=
  if item.isNone then some h
  else do
    let key := (← itemAt h item).key
    let h ← if key.isSome then h.free key else some h
    let h ← setItem h item fun item => { item with data := 0 }
    h.free item

/-- The loop of `htab_lookup`: the item with the key and the item before it, or `NULL` and the last
item. -/
def lookupLoop (h : Heap Block) (keyBackup : Ptr) : Nat → Ptr → Ptr → Option (Ptr × Ptr)
  | 0, _, _ => none
  | _ + 1, none, itemP => some (none, itemP)
  | fuel + 1, some a, itemP => do
    let item ← itemAt h (some a)
    let c ← strcmp (← charsAt h item.key) (← charsAt h keyBackup)
    if c = 0 then some (some a, itemP) else lookupLoop h keyBackup fuel item.next (some a)

/-- A new item comes behind the last item of the chain or becomes its first one. -/
def link (h : Heap Block) (t : Ptr) (index : Nat) (itemP newItem : Ptr) : Option (Heap Block) :=
  if itemP.isSome then setItem h itemP fun item => { item with next := newItem }
  else setData h t index newItem

/-- `htab_lookup` after the loop: the key is not in the table. -/
def insert (h : Heap Block) (t : Ptr) (index : Nat) (keyBackup itemP : Ptr)
    (newItem : Malloc Listitem) (newKey : Malloc (Nat → UInt8)) : Option (Ptr × Heap Block) := do
  let (newItem, h) ← hitemInit h keyBackup 0 newItem newKey
  if newItem.isNone then some (none, h)
  else
    let h ← link h t index itemP newItem
    let h ← h.free keyBackup
    some (newItem, h)

/-- `htab_lookup`. -/
def lookup (h : Heap Block) (t : Ptr) (key : List UInt8) (keyBackup : Malloc (Nat → UInt8))
    (newItem : Malloc Listitem) (newKey : Malloc (Nat → UInt8)) : Option (Ptr × Heap Block) :=
  match t, keyBackup with
  | none, _ => some (none, h)
  | some _, none => some (none, h)
  | some _, some (keyBackup, raw) => do
    let content ← strcpy (fresh (key.length + 1) raw) key
    let h := h.insert keyBackup (.chars content)
    let table ← tableAt h t
    let index := hashFunction (← stringAt h (some keyBackup)) table.size
    let item ← table.data[index]?
    let (item, itemP) ← lookupLoop h (some keyBackup) (h.cells.length + 1) item none
    if item.isSome then
      let h ← h.free (some keyBackup)
      some (item, h)
    else insert h t index (some keyBackup) itemP newItem newKey

/-- The four cases of `htab_remove` that take an item out of its chain. -/
def unlink (h : Heap Block) (t : Ptr) (index : Nat) (itemP next : Ptr) : Option (Heap Block) :=
  match itemP, next with
  | some _, some _ => setItem h itemP fun item => { item with next }
  | none, some _ => setData h t index next
  | some _, none => setItem h itemP fun item => { item with next := none }
  | none, none => setData h t index none

/-- The loop of `htab_remove` and what comes after it. `break` leads to the `free` after the
loop. -/
def removeLoop (h : Heap Block) (t : Ptr) (index : Nat) (keyBackup : Ptr) :
    Nat → Ptr → Ptr → Option (Heap Block)
  | 0, _, _ => none
  | _ + 1, none, _ => h.free keyBackup
  | fuel + 1, some a, itemP => do
    let item ← itemAt h (some a)
    let c ← strcmp (← charsAt h item.key) (← charsAt h keyBackup)
    if c = 0 then
      let h ← unlink h t index itemP item.next
      let h ← hitemFree h (some a)
      let h ← h.free keyBackup
      h.free keyBackup
    else removeLoop h t index keyBackup fuel item.next (some a)

/-- `htab_remove`. Nothing is copied to the backup of the key. -/
def remove (h : Heap Block) (t : Ptr) (key : List UInt8) (keyBackup : Malloc (Nat → UInt8)) :
    Option (Heap Block) :=
  match t, keyBackup with
  | none, _ => some h
  | some _, none => some h
  | some _, some (keyBackup, raw) => do
    let h := h.insert keyBackup (.chars (fresh (key.length + 1) raw))
    let table ← tableAt h t
    let index := hashFunction key table.size
    let item ← table.data[index]?
    removeLoop h t index (some keyBackup) (h.cells.length + 1) item none

/-- The inner loop of `htab_clear`. -/
def clearChain : Nat → Heap Block → Ptr → Option (Heap Block)
  | 0, _, _ => none
  | _ + 1, h, none => some h
  | fuel + 1, h, some a => do
    let temp := (← itemAt h (some a)).next
    let h ← hitemFree h (some a)
    clearChain fuel h temp

/-- One round of the outer loop of `htab_clear`. -/
def clearIndex (t : Ptr) (h : Heap Block) (i : Nat) : Option (Heap Block) := do
  let item ← (← tableAt h t).data[i]?
  if item.isNone then some h
  else
    let h ← clearChain (h.cells.length + 1) h item
    setData h t i none

/-- `htab_clear`. -/
def clear (h : Heap Block) (t : Ptr) : Option (Heap Block) :=
  if t.isNone then some h
  else do
    let table ← tableAt h t
    (List.range table.size).foldlM (clearIndex t) h

/-- `htab_free`. -/
def free (h : Heap Block) (t : Ptr) : Option (Heap Block) :=
  if t.isNone then some h
  else do
    let h ← clear h t
    h.free t

/-- The inner loop of `htab_foreach`: the arguments of the calls of `fp`. -/
def foreachChain (h : Heap Block) : Nat → Ptr → Option (List (List UInt8 × Nat))
  | 0, _ => none
  | _ + 1, none => some []
  | fuel + 1, some a => do
    let item ← itemAt h (some a)
    let key ← stringAt h item.key
    let calls ← foreachChain h fuel item.next
    some ((key, item.data) :: calls)

/-- `htab_foreach`: the arguments of the calls of `fp`. -/
def foreach (h : Heap Block) (t : Ptr) : Option (List (List UInt8 × Nat)) :=
  if t.isNone then some []
  else do
    let table ← tableAt h t
    let calls ← (List.range table.size).mapM fun i => do
      foreachChain h (h.cells.length + 1) (← table.data[i]?)
    some calls.flatten

end HtabMemory
