import FitProjects.Lib.HeapTree
import Mathlib.Logic.Function.Basic

/-! # Traversals of a binary tree with explicit stacks

The functions of `IAL/c402.c` that walk over a whole tree, with its two stacks. `maxStack` is
`MAXSTACK`, `fuel` bounds the rounds of the loops, `none` stands for an access through a null or
dangling pointer or for a loop that did not end. What is called and printed is logged in `out`. The
tests of the pointers to the root pointer and to the stacks are left out, these are always there. -/

namespace BTree

/-- `struct tBTNode`. -/
structure Node where
  cont : Int
  lPtr : Ptr
  rPtr : Ptr
  deriving DecidableEq

/-- `tStackP` and `tStackB`; the places of the array count from 1. -/
structure TStack (α : Type) where
  top : Nat
  a : Nat → α

/-- Calls of `BTWorkOut` and `free` and the errors of the stacks. -/
inductive Event
  | workOut (node : Addr) (cont : Int)
  | workOutNull
  | overflowP
  | underflowP
  | overflowB
  | underflowB
  | free (node : Addr)
  deriving DecidableEq

namespace TStack

variable {α : Type}

def push (S : TStack α) (x : α) : TStack α :=
  ⟨S.top + 1, Function.update S.a (S.top + 1) x⟩

def pop (S : TStack α) : α × TStack α := (S.a S.top, { S with top := S.top - 1 })

/-- The values up to the place `n`, the topmost first. -/
def upTo (a : Nat → α) : Nat → List α
  | 0 => []
  | n + 1 => a (n + 1) :: upTo a n

/-- The values on the stack, the topmost first. -/
def elems (S : TStack α) : List α := upTo S.a S.top

theorem upTo_update (h : n < m) (x : α) (a : Nat → α) :
    upTo (Function.update a m x) n = upTo a n := by
  induction n with
  | zero => rfl
  | succ n ih => rw [upTo, upTo, ih (by omega), Function.update_of_ne (by omega)]

theorem elems_push (S : TStack α) (x : α) : (S.push x).elems = x :: S.elems := by
  change upTo (Function.update S.a (S.top + 1) x) (S.top + 1) = _
  rw [upTo, Function.update_self, upTo_update (Nat.lt_succ_self _)]
  rfl

theorem length_elems (S : TStack α) : S.elems.length = S.top := by
  obtain ⟨top, a⟩ := S
  change (upTo a top).length = top
  induction top with
  | zero => rfl
  | succ n ih => rw [upTo, List.length_cons, ih]

theorem pop_of_elems {S : TStack α} (h : S.elems = x :: l) :
    S.top ≠ 0 ∧ S.pop.1 = x ∧ S.pop.2.elems = l := by
  obtain ⟨_ | n, a⟩ := S
  · cases h
  · obtain ⟨hx, hl⟩ := List.cons_eq_cons.mp h
    exact ⟨Nat.succ_ne_zero n, hx, hl⟩

end TStack

/-- The tree's memory, the two stacks and the log. -/
structure State where
  heap : Heap Node
  stackP : TStack Ptr
  stackB : TStack Bool
  out : List Event

namespace State

variable (maxStack : Nat) (s : State)

def log (e : Event) : State := { s with out := s.out ++ [e] }

def btWorkOut : Ptr → Option State
  | none => some (s.log .workOutNull)
  | some ptr => do
    let node ← s.heap.get? ptr
    some (s.log (.workOut ptr node.cont))

def sInitP : State := { s with stackP := { s.stackP with top := 0 } }

def sPushP (ptr : Ptr) : State :=
  if s.stackP.top = maxStack then s.log .overflowP else { s with stackP := s.stackP.push ptr }

def sTopPopP : Ptr × State :=
  if s.stackP.top = 0 then (none, s.log .underflowP)
  else (s.stackP.pop.1, { s with stackP := s.stackP.pop.2 })

def sEmptyP : Bool := s.stackP.top = 0

def sInitB : State := { s with stackB := { s.stackB with top := 0 } }

def sPushB (val : Bool) : State :=
  if s.stackB.top = maxStack then s.log .overflowB else { s with stackB := s.stackB.push val }

def sTopPopB : Bool × State :=
  if s.stackB.top = 0 then (false, s.log .underflowB)
  else (s.stackB.pop.1, { s with stackB := s.stackB.pop.2 })

/-! ## Preorder -/

def leftmostPreorder (s : State) : Nat → Ptr → Option State
  | _, none => some s
  | 0, some _ => none
  | fuel + 1, some ptr => do
    let s ← s.btWorkOut ptr
    let s := s.sPushP maxStack ptr
    let node ← s.heap.get? ptr
    leftmostPreorder s fuel node.lPtr

/-- The `do` loop of `BTPreorder`: every round takes a pointer off the stack, which bounds the
rounds. -/
def preorderUp (s : State) (root : Ptr) : Nat → Option (Ptr × State)
  | 0 => if s.sEmptyP then some (root, s) else none
  | n + 1 => if s.sEmptyP then some (root, s) else do
    let (ptr, s) := s.sTopPopP
    let node ← s.heap.read ptr
    if node.rPtr.isNone then preorderUp s node.rPtr n else some (node.rPtr, s)

def preorderLoop (fuel : Nat) (s : State) : Nat → Ptr → Option State
  | _, none => some s
  | 0, some _ => none
  | n + 1, some root => do
    let s ← s.leftmostPreorder maxStack fuel root
    let (root, s) ← s.preorderUp (some root) s.stackP.top
    preorderLoop fuel s n root

def btPreorder (fuel : Nat) (root : Ptr) : Option State :=
  if root.isNone then some s else s.sInitP.preorderLoop maxStack fuel fuel root

/-! ## Inorder -/

def leftmostInorder (s : State) : Nat → Ptr → Option State
  | _, none => some s
  | 0, some _ => none
  | fuel + 1, some ptr => do
    let s := s.sPushP maxStack ptr
    let node ← s.heap.get? ptr
    leftmostInorder s fuel node.lPtr

def inorderLoop (fuel : Nat) (s : State) : Nat → Ptr → Option State
  | _, none => some s
  | 0, some _ => none
  | n + 1, some _ => if s.sEmptyP then some s else do
    let (root, s) := s.sTopPopP
    let s ← s.btWorkOut root
    let node ← s.heap.read root
    let s ← if node.rPtr.isSome then s.leftmostInorder maxStack fuel node.rPtr else some s
    inorderLoop fuel s n root

def btInorder (fuel : Nat) (root : Ptr) : Option State :=
  if root.isNone then some s else do
    let s ← s.sInitP.leftmostInorder maxStack fuel root
    s.inorderLoop maxStack fuel fuel root

/-! ## Postorder -/

def leftmostPostorder (s : State) : Nat → Ptr → Option State
  | _, none => some s
  | 0, some _ => none
  | fuel + 1, some ptr => do
    let s := s.sPushP maxStack ptr
    let s := s.sPushB maxStack true
    let node ← s.heap.get? ptr
    leftmostPostorder s fuel node.lPtr

def postorderLoop (fuel : Nat) (s : State) : Nat → Option State
  | 0 => if s.sEmptyP then some s else none
  | n + 1 => if s.sEmptyP then some s else do
    let (l, s) := s.sTopPopB
    let (root, s) := s.sTopPopP
    if !l then do
      let s ← s.btWorkOut root
      postorderLoop fuel s n
    else do
      let s := s.sPushB maxStack false
      let s := s.sPushP maxStack root
      let node ← s.heap.read root
      let s ← s.leftmostPostorder maxStack fuel node.rPtr
      postorderLoop fuel s n

def btPostorder (fuel : Nat) (root : Ptr) : Option State :=
  if root.isNone then some s else do
    let s ← s.sInitP.sInitB.leftmostPostorder maxStack fuel root
    s.postorderLoop maxStack fuel fuel

/-! ## Disposal -/

def free (ptr : Addr) : Option State :=
  (s.heap.free (some ptr)).map fun heap => { s with heap, out := s.out ++ [.free ptr] }

/-- The pointer that `BTDisposeTree` goes on with after a leaf. -/
def popNext : Ptr × State := if s.sEmptyP then (none, s) else s.sTopPopP

def disposeLoop (s : State) : Nat → Ptr → Option State
  | _, none => some s
  | 0, some _ => none
  | n + 1, some ptr => do
    let node ← s.heap.get? ptr
    let (nextPtr, s) :=
      if node.lPtr.isSome then
        (node.lPtr, if node.rPtr.isSome then s.sPushP maxStack node.rPtr else s)
      else if node.rPtr.isSome then (node.rPtr, s)
      else s.popNext
    let s ← s.free ptr
    disposeLoop s n nextPtr

/-- The new root pointer comes first. -/
def btDisposeTree (fuel : Nat) (root : Ptr) : Option (Ptr × State) :=
  if root.isNone then some (root, s) else do
    let s ← s.sInitP.disposeLoop maxStack fuel root
    some (none, s)

end State

end BTree
