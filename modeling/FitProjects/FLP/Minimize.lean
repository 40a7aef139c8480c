import FitProjects.Lib.DataList
import FitProjects.FLP.FSM
import Mathlib.Data.Finset.Sort
import Mathlib.Data.List.ProdSigma

/-! # Minimization

The functions of `FLP/Minimize.hs`. The recursions `lastEqClass` and `alg` end for every input.
`minRep` is an error for an element without a pair, so that it and all that uses it returns an
`Option`. -/

namespace FLP

open DataList

local instance lawfulBEqState : LawfulBEq State := inferInstance

namespace FSM

/-! ## Reachable states -/

/-- One round of the search for reachable states. -/
def reachStep (fsm : FSM) (prev : Finset State) : Finset State :=
  prev ∪ (prev.sort.flatMap fun p => fsm.alphabet.filterMap fun a => fsm.makeTransition p a).toFinset

theorem reachStep_subset (fsm : FSM) (prev : Finset State) :
    fsm.reachStep prev ⊆ prev ∪ (fsm.transitions.map (·.toState)).toFinset := by
  intro q hq
  simp only [reachStep, Finset.mem_union, List.mem_toFinset, List.mem_flatMap, List.mem_filterMap,
    List.mem_map] at hq ⊢
  rcases hq with hq | ⟨p, -, a, -, h⟩
  · exact .inl hq
  · exact .inr ⟨_, mem_of_makeTransition h, rfl⟩

/-- `alg`: rounds until nothing new is found. -/
def reachAlg (fsm : FSM) (prev : Finset State) : Finset State :=
  if fsm.reachStep prev = prev then prev else reachAlg fsm (fsm.reachStep prev)
termination_by ((fsm.transitions.map (·.toState)).toFinset \ prev).card
decreasing_by
  rename_i h
  have hsub : prev ⊆ fsm.reachStep prev := Finset.subset_union_left
  obtain ⟨q, hq, hp⟩ := Finset.exists_of_ssubset (hsub.ssubset_of_ne (Ne.symm h))
  refine Finset.card_lt_card (Finset.ssubset_iff_of_subset
    (Finset.sdiff_subset_sdiff le_rfl hsub) |>.mpr ⟨q, ?_, by simp [hq]⟩)
  have := fsm.reachStep_subset prev hq
  simp_all

def removeNonReachableStates (fsm : FSM) : FSM :=
  let newStates := fsm.reachAlg {fsm.initialState}
  { fsm with
    states := newStates.sort
    finalStates := (fsm.finalStates.toFinset ∩ newStates).sort
    transitions := fsm.transitions.filter fun t => t.fromState ∈ newStates ∧ t.toState ∈ newStates }

/-! ## Completion -/

def sink : State := "SINK".toList

/-- The pairs of a state and a symbol without a transition. -/
def missing (fsm : FSM) : List (State × Symbol) :=
  (fsm.states.product fsm.alphabet).diff (fsm.transitions.map fun t => (t.fromState, t.symbol))

def wellTransitions (fsm : FSM) : List Transition := fsm.missing.map fun t => ⟨t.1, t.2, sink⟩

def sinkTransitions (fsm : FSM) : List Transition := fsm.alphabet.map fun a => ⟨sink, a, sink⟩

def wellFSM (fsm : FSM) : FSM :=
  { fsm with
    states := if fsm.wellTransitions.isEmpty then fsm.states else fsm.states ++ [sink]
    transitions := sort (fsm.transitions ++ fsm.wellTransitions ++ fsm.sinkTransitions) }

/-! ## Equivalent states -/

def zeroEq (fsm : FSM) : List (State × State) :=
  (fsm.states.product fsm.states).filter fun e =>
    decide (e.1 ∈ fsm.finalStates) == decide (e.2 ∈ fsm.finalStates)

def inSameClass (fsm : FSM) (fclass : List (State × State)) (p q : State) (symbol : Symbol) : Bool :=
  match fsm.makeTransition p symbol, fsm.makeTransition q symbol with
  | some p', some q' => (p', q') ∈ fclass
  | _, _ => false

def ekvTrans (fsm : FSM) (fclass : List (State × State)) (p q : State) : Bool :=
  fsm.alphabet.all fun sym => fsm.inSameClass fclass p q sym

def nextEq (fsm : FSM) (previous : List (State × State)) : List (State × State) :=
  (fsm.states.product fsm.states).filter fun e =>
    decide (e ∈ previous) && fsm.ekvTrans previous e.1 e.2

/-- The pairs of states that are in the list, in the order in which `nextEq` lists them. -/
def ordered (fsm : FSM) (fclass : List (State × State)) : List (State × State) :=
  (fsm.states.product fsm.states).filter fun e => e ∈ fclass

theorem nextEq_eq_filter (fsm : FSM) (fclass : List (State × State)) :
    fsm.nextEq fclass = (fsm.ordered fclass).filter fun e => fsm.ekvTrans fclass e.1 e.2 := by
  simp only [nextEq, ordered, List.filter_filter, Bool.and_comm]

theorem ordered_nextEq (fsm : FSM) (fclass : List (State × State)) :
    fsm.ordered (fsm.nextEq fclass) = fsm.nextEq fclass := by
  refine List.filter_congr fun e he => ?_
  simp [nextEq, he]

def lastEqClass (fsm : FSM) (fclass : List (State × State)) : List (State × State) :=
  if fsm.nextEq fclass = fclass then fclass else lastEqClass fsm (fsm.nextEq fclass)
termination_by (if fsm.ordered fclass = fclass then 0 else 1, fclass.length)
decreasing_by
  rename_i h
  rw [ordered_nextEq, if_pos rfl]
  split_ifs with ho
  · refine Prod.Lex.right _ (lt_of_le_of_ne ?_ fun hlen => h ?_)
    · rw [nextEq_eq_filter, ho]
      exact List.length_filter_le _ _
    · rw [nextEq_eq_filter, ho] at hlen ⊢
      exact List.filter_eq_self.mpr (List.length_filter_eq_length_iff.mp hlen)
  · exact Prod.Lex.left _ _ Nat.zero_lt_one

end FSM

/-! ## Classes -/

section
variable {α : Type u} [LinearOrder α]

/-- The least of the elements paired with `x` from the left and, if `x` has a pair, of `x`. -/
def findSmallerRep (x : α) (classes : List (α × α)) : Option α :=
  ((classes.filter fun e => e.2 = x).map Prod.fst ++
    (classes.filter fun e => e.1 = x).map fun _ => x).min?

/-- `minRep` in at most `n` rounds. -/
def minRep (classes : List (α × α)) : Nat → α → Option α
  | 0, _ => none
  | n + 1, x => (findSmallerRep x classes).bind fun smallerRep =>
    if smallerRep = x then some x else minRep classes n smallerRep

def minClasses (classes : List (α × α)) : Option (List (List α)) :=
  let states := (classes.map Prod.fst ++ classes.map Prod.snd).eraseDups
  let rep := minRep classes (classes.length + 1)
  if states.all fun x => (rep x).isSome then
    some (groupBy (fun x y => (x, y) ∈ classes) (sortOn (fun x => (rep x).getD x) states))
  else none

end

/-- `show` of a number. -/
def showNat (n : Nat) : State := Nat.toDigits 10 n

def newStates (classes : List (List State)) : Map State State :=
  Map.fromList ((classes.zipIdx 1).foldr (fun x acc => (x.1.map fun a => (a, showNat x.2)) ++ acc) [])

def ekvState (table : Map State State) (state : State) : Option State := table.lookup state

namespace FSM

/-! ## Reduction -/

def isSinkState (fsm : FSM) (state : State) : Bool :=
  decide (state ∉ fsm.finalStates) &&
    (fsm.transitions.filter fun t => t.fromState = state).all fun t => t.toState = t.fromState

/-- The machine on the classes of `wdfsm` that `table` names. -/
def rename (wdfsm : FSM) (table : Map State State) : FSM :=
  let trans := wdfsm.states.flatMap fun p => wdfsm.states.flatMap fun q =>
    wdfsm.alphabet.filterMap fun a =>
      match ekvState table p, ekvState table q with
      | some p', some q' => if wdfsm.makeTransition p a = some q then some ⟨p', a, q'⟩ else none
      | _, _ => none
  { wdfsm with
    states := sort table.elems.eraseDups
    initialState := (ekvState table wdfsm.initialState).getD "EMPTY".toList
    transitions := sort trans.eraseDups
    finalStates := (wdfsm.finalStates.filterMap (ekvState table)).eraseDups }

/-- `reduceFSM'`. -/
def reduceFSM' (fsm : FSM) : Option FSM :=
  let wdfsm := fsm.wellFSM
  let cl := wdfsm.lastEqClass wdfsm.zeroEq
  (minClasses cl).map fun classes => wdfsm.rename (newStates classes)

/-- Delete a state and its transitions. -/
def deleteState (reduced : FSM) (sink : State) : FSM :=
  { reduced with
    states := reduced.states.filter fun s => s ≠ sink
    transitions := reduced.transitions.filter fun t => t.toState ≠ sink ∧ t.fromState ≠ sink }

def reduceFSM (fsm : FSM) : Option FSM :=
  fsm.reduceFSM'.map fun reduced =>
    match reduced.states.find? reduced.isSinkState with
    | none => reduced
    | some sink => reduced.deleteState sink

end FSM

end FLP
