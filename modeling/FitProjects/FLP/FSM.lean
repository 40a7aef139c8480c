import FitProjects.Lib.PartialAutomaton
import Mathlib.Data.Char
import Mathlib.Data.List.Lex
import Mathlib.Data.Prod.Lex

/-! # Finite state machines

The automata of `FLP/Type/FSM.hs` and what they accept. A `String` of the source is a list of
characters, as there. -/

namespace FLP

abbrev State := List Char
abbrev Symbol := Char

/-- A transition `from`, `symbol`, `to`. -/
structure Transition where
  fromState : State
  symbol : Symbol
  toState : State
  deriving DecidableEq

/-- The derived `Ord`: lexicographic in the order of the fields. -/
def Transition.key (t : Transition) : State ×ₗ Symbol ×ₗ State :=
  toLex (t.fromState, toLex (t.symbol, t.toState))

theorem Transition.key_injective : Function.Injective Transition.key := by
  rintro ⟨p, a, q⟩ ⟨p', a', q'⟩ h
  simpa [Transition.key] using h

instance : LinearOrder Transition := LinearOrder.lift' Transition.key Transition.key_injective

structure FSM where
  alphabet : List Symbol
  states : List State
  initialState : State
  finalStates : List State
  transitions : List Transition

namespace FSM

/-- The state that `src` goes to with `sym`. -/
def makeTransition (fsm : FSM) (src : State) (sym : Symbol) : Option State :=
  (fsm.transitions.find? fun t => t.fromState = src ∧ t.symbol = sym).map (·.toState)

/-- The machine as a partial automaton. -/
def automaton (fsm : FSM) : PartialAutomaton State Symbol where
  step := fsm.makeTransition
  accept q := q ∈ fsm.finalStates

/-- The machine accepts the word. -/
def Accepts (fsm : FSM) (w : List Symbol) : Prop := fsm.automaton.Accepts fsm.initialState w

/-- No two transitions differ only in where they go. -/
def Deterministic (fsm : FSM) : Prop :=
  ∀ t ∈ fsm.transitions, ∀ t' ∈ fsm.transitions,
    t.fromState = t'.fromState → t.symbol = t'.symbol → t.toState = t'.toState

/-- A deterministic automaton as the parser is meant to deliver it. -/
structure WellFormed (fsm : FSM) : Prop where
  states_nodup : fsm.states.Nodup
  initial_mem : fsm.initialState ∈ fsm.states
  final_mem : ∀ q ∈ fsm.finalStates, q ∈ fsm.states
  from_mem : ∀ t ∈ fsm.transitions, t.fromState ∈ fsm.states
  to_mem : ∀ t ∈ fsm.transitions, t.toState ∈ fsm.states
  deterministic : fsm.Deterministic
  alphabet_nodup : fsm.alphabet.Nodup
  alphabet_mem : ∀ a, a ∈ fsm.alphabet ↔ ∃ t ∈ fsm.transitions, t.symbol = a

section
variable {fsm : FSM} {p q : State} {a : Symbol}

theorem mem_of_makeTransition (h : fsm.makeTransition p a = some q) :
    ⟨p, a, q⟩ ∈ fsm.transitions := by
  simp only [makeTransition, Option.map_eq_some_iff] at h
  obtain ⟨t, ht, rfl⟩ := h
  have hp := List.find?_some ht
  obtain ⟨rfl, rfl⟩ := of_decide_eq_true hp
  exact List.mem_of_find?_eq_some ht

theorem makeTransition_eq_some (hd : fsm.Deterministic) :
    fsm.makeTransition p a = some q ↔ ⟨p, a, q⟩ ∈ fsm.transitions := by
  refine ⟨mem_of_makeTransition, fun h => ?_⟩
  cases hm : fsm.makeTransition p a with
  | none =>
    simp only [makeTransition, Option.map_eq_none_iff, List.find?_eq_none] at hm
    simpa using hm _ h
  | some r => exact congrArg some (hd _ (mem_of_makeTransition hm) _ h rfl rfl)

theorem makeTransition_eq_none :
    fsm.makeTransition p a = none ↔ ∀ q, ⟨p, a, q⟩ ∉ fsm.transitions := by
  simp only [makeTransition, Option.map_eq_none_iff, List.find?_eq_none, decide_eq_true_eq]
  refine ⟨fun h q hq => h _ hq ⟨rfl, rfl⟩, fun h t ht ⟨hp, ha⟩ => h t.toState ?_⟩
  subst hp ha
  exact ht

end

end FSM

end FLP
