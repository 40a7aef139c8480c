import FitProjects.Lib.Heap
import FitProjects.IAL.ListCall

/-! # The singly linked list

The functions of `IAL/c201.c` over a heap of list elements, with the conventions of `DList`: `none`
for an access through a null or dangling pointer, the outcome of `malloc` as an argument. The tests
of the list pointer itself (`L == NULL`) are left out, the list is always there. -/

namespace SList

/-- `struct tElem`. -/
structure Elem where
  data : Int
  ptr : Ptr
  deriving DecidableEq

/-- The outcome of `malloc`. -/
abbrev Malloc := Option (Addr × Elem)

/-- A `tList`, the heap it lives in, and the error state. -/
structure State where
  heap : Heap Elem
  act : Ptr
  first : Ptr
  err : ErrorState

namespace State

variable (s : State)

/-- `Error`. -/
def error : State := { s with err := s.err.raise }

/-- The element that `p` points to. -/
def deref (p : Ptr) : Option Elem := s.heap.read p

/-- Assign a field of the element that `p` points to. -/
def assign (p : Ptr) (f : Elem → Elem) : Option State :=
  (s.heap.modify p f).map fun heap => { s with heap }

def setPtr (p q : Ptr) : Option State := s.assign p fun e => { e with ptr := q }

def setData (p : Ptr) (val : Int) : Option State := s.assign p fun e => { e with data := val }

/-- The memory that `malloc` returns becomes part of the heap. -/
def alloc (item : Addr) (fresh : Elem) : State := { s with heap := s.heap.insert item fresh }

def free (p : Ptr) : Option State := (s.heap.free p).map fun heap => { s with heap }

def initList : State := { s with act := none, first := none }

/-- The loop of `DisposeList`; every round frees an element, so the size of the heap bounds the
rounds. -/
def disposeLoop (s : State) : Nat → Ptr → Option State
  | _, none => some s
  | 0, some _ => none
  | n + 1, some item => do
    let nextItem := (← s.deref item).ptr
    let s ← s.free item
    disposeLoop s n nextItem

def disposeList : Option State := do
  let s ← s.disposeLoop s.heap.cells.length s.first
  some { s with act := none, first := none }

def insertFirst (val : Int) : Malloc → Option State
  | none => some s.error
  | some (item, fresh) => do
    let s := s.alloc item fresh
    let s ← s.setData item val
    let s ← s.setPtr item none
    let s ← if s.first.isSome then s.setPtr item s.first else some s
    some { s with first := item }

/-- `First`. -/
def toFirst : State := { s with act := s.first }

/-- `CopyFirst`: the value for `*val` comes second. -/
def copyFirst : Option (State × Option Int) :=
  if s.first.isNone then some (s.error, none) else do
    let e ← s.deref s.first
    some (s, e.data)

def deleteFirst : Option State :=
  if s.first.isNone then some s else do
    let s := { s with act := if s.act = s.first then none else s.act }
    let nextItem := (← s.deref s.first).ptr
    let s ← s.free s.first
    some { s with first := nextItem }

def postDelete : Option State :=
  if s.act.isNone then some s else do
    let freedItem := (← s.deref s.act).ptr
    if freedItem.isNone then some s else do
      let next := (← s.deref freedItem).ptr
      let s ← if next.isSome then s.setPtr s.act next else s.setPtr s.act none
      s.free freedItem

def postInsert (val : Int) (malloc : Malloc) : Option State :=
  if s.act.isNone then some s else
  match malloc with
  | none => some s.error
  | some (item, fresh) => do
    let s := s.alloc item fresh
    let s ← s.setData item val
    let next := (← s.deref s.act).ptr
    if next.isNone then do
      let s ← s.setPtr s.act item
      s.setPtr item none
    else do
      let s ← s.setPtr item next
      s.setPtr s.act item

def copy : Option (State × Option Int) :=
  if s.act.isNone then some (s.error, none) else do
    let e ← s.deref s.act
    some (s, e.data)

def actualize (val : Int) : Option State :=
  if s.act.isNone then some s else s.setData s.act val

def succ : Option State :=
  if s.act.isNone then some s else do
    let e ← s.deref s.act
    some { s with act := e.ptr }

def active : Bool := s.act.isSome

/-- The reply to a call that stores and returns nothing. -/
def reply : State × Reply := (s, ⟨none, none, s.err⟩)

/-- The reply to a call that stores `val`, if anything. -/
def replyVal (val : Option Int) : State × Reply := (s, ⟨val, none, s.err⟩)

/-- One call; the module does not have the calls that are not shared. -/
def call : ListCall Malloc → Option (State × Reply)
  | .initList => some s.initList.reply
  | .disposeList => s.disposeList.map reply
  | .insertFirst val malloc => (s.insertFirst val malloc).map reply
  | .first => some s.toFirst.reply
  | .copyFirst => s.copyFirst.map fun (s, val) => s.replyVal val
  | .deleteFirst => s.deleteFirst.map reply
  | .postDelete => s.postDelete.map reply
  | .postInsert val malloc => (s.postInsert val malloc).map reply
  | .copy => s.copy.map fun (s, val) => s.replyVal val
  | .actualize val => (s.actualize val).map reply
  | .succ => s.succ.map reply
  | .active => some (s, ⟨none, some s.active, s.err⟩)
  | .insertLast .. | .last | .copyLast | .deleteLast | .preDelete | .preInsert .. | .pred => none

end State

/-- The module as an implementation of the calls. -/
def module : ListModule State Elem where
  heap := State.heap
  err := State.err
  call := State.call

end SList
