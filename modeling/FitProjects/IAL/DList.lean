import FitProjects.Lib.Heap
import FitProjects.IAL.ListCall

/-! # The doubly linked list

The functions of `IAL/c206.c`, without the prefix `DL`, over a heap of list elements. A function
returns `none` when it reads, writes or frees through a null or dangling pointer. The outcome of
`malloc` is an argument: `none` when the allocation fails, else the address of the new element and
what the fresh memory happens to hold. -/

namespace DList

/-- `struct tDLElem`. -/
structure Elem where
  data : Int
  lptr : Ptr
  rptr : Ptr
  deriving DecidableEq

/-- The outcome of `malloc`. -/
abbrev Malloc := Option (Addr × Elem)

/-- A `tDLList`, the heap it lives in, and the error state. -/
structure State where
  heap : Heap Elem
  first : Ptr
  act : Ptr
  last : Ptr
  err : ErrorState

namespace State

variable (s : State)

/-- `DLError`. -/
def error : State := { s with err := s.err.raise }

/-- The element that `p` points to. -/
def deref (p : Ptr) : Option Elem := s.heap.read p

/-- Assign a field of the element that `p` points to. -/
def assign (p : Ptr) (f : Elem → Elem) : Option State :=
  (s.heap.modify p f).map fun heap => { s with heap }

def setLptr (p q : Ptr) : Option State := s.assign p fun e => { e with lptr := q }

def setRptr (p q : Ptr) : Option State := s.assign p fun e => { e with rptr := q }

def setData (p : Ptr) (val : Int) : Option State := s.assign p fun e => { e with data := val }

/-- The memory that `malloc` returns becomes part of the heap. -/
def alloc (item : Addr) (fresh : Elem) : State := { s with heap := s.heap.insert item fresh }

def free (p : Ptr) : Option State := (s.heap.free p).map fun heap => { s with heap }

def initList : State := { s with first := none, act := none, last := none }

/-- The loop of `DLDisposeList`; every round frees an element, so the size of the heap bounds the
rounds. -/
def disposeLoop (s : State) : Nat → Ptr → Option State
  | _, none => some s
  | 0, some _ => none
  | n + 1, some item => do
    let nextItem := (← s.deref item).rptr
    let s ← s.free item
    disposeLoop s n nextItem

def disposeList : Option State := do
  let s ← s.disposeLoop s.heap.cells.length s.first
  some { s with act := none, first := none, last := none }

def insertFirst (val : Int) : Malloc → Option State
  | none => some s.error
  | some (item, fresh) => do
    let s := s.alloc item fresh
    let s ← s.setLptr item none
    let s ← if s.first.isSome then do
        let s ← s.setRptr item s.first
        s.setLptr s.first item
      else do
        let s ← s.setRptr item none
        some { s with last := item }
    let s ← s.setData item val
    some { s with first := item }

def insertLast (val : Int) : Malloc → Option State
  | none => some s.error
  | some (item, fresh) => do
    let s := s.alloc item fresh
    let s ← s.setRptr item none
    let s ← if s.last.isSome then do
        let s ← s.setLptr item s.last
        s.setRptr s.last item
      else do
        let s ← s.setLptr item none
        some { s with first := item }
    let s ← s.setData item val
    some { s with last := item }

/-- `DLFirst`. -/
def toFirst : State := { s with act := s.first }

/-- `DLLast`. -/
def toLast : State := { s with act := s.last }

/-- `DLCopyFirst`: the value for `*val` comes second. -/
def copyFirst : Option (State × Option Int) :=
  if s.first.isNone then some (s.error, none) else do
    let e ← s.deref s.first
    some (s, e.data)

def copyLast : Option (State × Option Int) :=
  if s.last.isNone then some (s.error, none) else do
    let e ← s.deref s.last
    some (s, e.data)

def deleteFirst : Option State :=
  if s.first.isNone then some s else do
    let s := { s with act := if s.first = s.act then none else s.act }
    let freedItem := s.first
    let s := { s with last := if s.first = s.last then none else s.last }
    let e ← s.deref s.first
    let s := { s with first := e.rptr }
    let s ← if s.first.isSome then s.setLptr s.first none else some s
    s.free freedItem

def deleteLast : Option State :=
  if s.last.isNone then some s else do
    let s := { s with act := if s.last = s.act then none else s.act }
    let freedItem := s.last
    let e ← s.deref s.last
    let s := { s with last := e.lptr }
    let s ← if s.last.isSome then s.setRptr s.last none else some { s with first := none }
    s.free freedItem

def postDelete : Option State :=
  if s.act.isNone ∨ s.act = s.last then some s else do
    let item := (← s.deref s.act).rptr
    -- `item && item->rptr`
    let inner ← if item.isSome then do some (← s.deref item).rptr.isSome else some false
    let s ← if inner then do
        let s ← s.setRptr s.act (← s.deref item).rptr
        s.setLptr (← s.deref item).rptr s.act
      else do
        let s := { s with last := (← s.deref item).lptr }
        s.setRptr s.last none
    s.free item

def preDelete : Option State :=
  if s.act.isNone ∨ s.act = s.first then some s else do
    let item := (← s.deref s.act).lptr
    -- `item && item->lptr`
    let inner ← if item.isSome then do some (← s.deref item).lptr.isSome else some false
    let s ← if inner then do
        let s ← s.setLptr s.act (← s.deref item).lptr
        s.setRptr (← s.deref item).lptr s.act
      else do
        let s := { s with first := s.act }
        s.setLptr s.act none
    s.free item

def postInsert (val : Int) (malloc : Malloc) : Option State :=
  if s.act.isNone then some s else
  match malloc with
  | none => some s.error
  | some (item, fresh) => do
    let s := s.alloc item fresh
    let s ← s.setLptr item s.act
    let s ← s.setRptr item (← s.deref s.act).rptr
    let s ← s.setRptr s.act item
    let rptr := (← s.deref item).rptr
    let s ← if rptr.isSome then s.setLptr rptr item else some { s with last := item }
    s.setData item val

def preInsert (val : Int) (malloc : Malloc) : Option State :=
  if s.act.isNone then some s else
  match malloc with
  | none => some s.error
  | some (item, fresh) => do
    let s := s.alloc item fresh
    let s ← s.setRptr item s.act
    let s ← s.setLptr item (← s.deref s.act).lptr
    let s ← s.setLptr s.act item
    let lptr := (← s.deref item).lptr
    let s ← if lptr.isSome then s.setRptr lptr item else some { s with first := item }
    s.setData item val

def copy : Option (State × Option Int) :=
  if s.act.isNone then some (s.error, none) else do
    let e ← s.deref s.act
    some (s, e.data)

def actualize (val : Int) : Option State :=
  if s.act.isNone then some s else s.setData s.act val

def succ : Option State :=
  if s.act.isNone then some s else do
    let e ← s.deref s.act
    some { s with act := e.rptr }

def pred : Option State :=
  if s.act.isNone then some s else do
    let e ← s.deref s.act
    some { s with act := e.lptr }

def active : Bool := s.act.isSome

/-- The reply to a call that stores and returns nothing. -/
def reply : State × Reply := (s, ⟨none, none, s.err⟩)

/-- The reply to a call that stores `val`, if anything. -/
def replyVal (val : Option Int) : State × Reply := (s, ⟨val, none, s.err⟩)

def call : ListCall Malloc → Option (State × Reply)
  | .initList => some s.initList.reply
  | .disposeList => s.disposeList.map reply
  | .insertFirst val malloc => (s.insertFirst val malloc).map reply
  | .insertLast val malloc => (s.insertLast val malloc).map reply
  | .first => some s.toFirst.reply
  | .last => some s.toLast.reply
  | .copyFirst => s.copyFirst.map fun (s, val) => s.replyVal val
  | .copyLast => s.copyLast.map fun (s, val) => s.replyVal val
  | .deleteFirst => s.deleteFirst.map reply
  | .deleteLast => s.deleteLast.map reply
  | .postDelete => s.postDelete.map reply
  | .preDelete => s.preDelete.map reply
  | .postInsert val malloc => (s.postInsert val malloc).map reply
  | .preInsert val malloc => (s.preInsert val malloc).map reply
  | .copy => s.copy.map fun (s, val) => s.replyVal val
  | .actualize val => (s.actualize val).map reply
  | .succ => s.succ.map reply
  | .pred => s.pred.map reply
  | .active => some (s, ⟨none, some s.active, s.err⟩)

end State

/-- The module as an implementation of the calls. -/
def module : ListModule State Elem where
  heap := State.heap
  err := State.err
  call := State.call

end DList
