import FitProjects.FLP.Minimize

/-! # Removing unreachable states

`removeNonReachableStates` keeps the states that some word leads to, and what is accepted from
them. -/

namespace FLP.FSM

variable {fsm : FSM} {prev : Finset State} {p q : State} {a : Symbol}

theorem mem_reachStep : q ∈ fsm.reachStep prev ↔
    q ∈ prev ∨ ∃ p ∈ prev, ∃ a ∈ fsm.alphabet, fsm.makeTransition p a = some q := by
  simp [reachStep]

theorem reachStep_reachAlg : fsm.reachStep (fsm.reachAlg prev) = fsm.reachAlg prev := by
  induction prev using reachAlg.induct fsm with
  | case1 prev h =>
    rw [reachAlg, if_pos h]
    exact h
  | case2 prev h ih => rwa [reachAlg, if_neg h]

theorem subset_reachAlg : prev ⊆ fsm.reachAlg prev := by
  induction prev using reachAlg.induct fsm with
  | case1 prev h => rw [reachAlg, if_pos h]
  | case2 prev h ih =>
    rw [reachAlg, if_neg h]
    exact Finset.Subset.trans Finset.subset_union_left ih

/-- What holds of the first states and is kept by transitions holds of all that are found. -/
theorem reachAlg_of_step {P : State → Prop} (h : ∀ q ∈ prev, P q)
    (hstep : ∀ p a q, P p → fsm.makeTransition p a = some q → P q) :
    ∀ q ∈ fsm.reachAlg prev, P q := by
  induction prev using reachAlg.induct fsm with
  | case1 prev h' =>
    rw [reachAlg, if_pos h']
    exact h
  | case2 prev h' ih =>
    rw [reachAlg, if_neg h']
    refine ih fun q hq => ?_
    rcases mem_reachStep.mp hq with hq | ⟨p, hp, a, -, ha⟩
    · exact h q hq
    · exact hstep p a q (h p hp) ha

/-- The states that are kept. -/
def reachable (fsm : FSM) : Finset State := fsm.reachAlg {fsm.initialState}

theorem initialState_mem_reachable : fsm.initialState ∈ fsm.reachable :=
  subset_reachAlg (Finset.mem_singleton_self _)

@[simp] theorem mem_removeNonReachableStates_states :
    q ∈ fsm.removeNonReachableStates.states ↔ q ∈ fsm.reachable := by
  simp [removeNonReachableStates, reachable]

theorem mem_removeNonReachableStates_finalStates :
    q ∈ fsm.removeNonReachableStates.finalStates ↔ q ∈ fsm.finalStates ∧ q ∈ fsm.reachable := by
  simp [removeNonReachableStates, reachable]

theorem mem_removeNonReachableStates_transitions {t : Transition} :
    t ∈ fsm.removeNonReachableStates.transitions ↔
      t ∈ fsm.transitions ∧ t.fromState ∈ fsm.reachable ∧ t.toState ∈ fsm.reachable := by
  simp [removeNonReachableStates, reachable]

theorem removeNonReachableStates_deterministic (hdet : fsm.Deterministic) :
    fsm.removeNonReachableStates.Deterministic := fun t ht t' ht' =>
  hdet t (mem_removeNonReachableStates_transitions.mp ht).1 t'
    (mem_removeNonReachableStates_transitions.mp ht').1

/-- A kept state other than the initial one is the end of a transition. -/
theorem eq_initialState_or_toState (hq : q ∈ fsm.reachable) :
    q = fsm.initialState ∨ ∃ t ∈ fsm.transitions, t.toState = q := by
  refine reachAlg_of_step (P := fun q => q = fsm.initialState ∨ ∃ t ∈ fsm.transitions, t.toState = q)
    (fun q hq => .inl (Finset.mem_singleton.mp hq)) (fun p a q _ h => ?_) q hq
  exact .inr ⟨_, mem_of_makeTransition h, rfl⟩

section
variable (hsym : ∀ t ∈ fsm.transitions, t.symbol ∈ fsm.alphabet)
include hsym

theorem reachable_step (hp : p ∈ fsm.reachable) (h : fsm.makeTransition p a = some q) :
    q ∈ fsm.reachable := by
  rw [reachable, ← reachStep_reachAlg, mem_reachStep]
  exact .inr ⟨p, hp, a, hsym _ (mem_of_makeTransition h), h⟩

variable (hdet : fsm.Deterministic)
include hdet

/-- Kept states keep their transitions. -/
theorem removeNonReachableStates_makeTransition (hp : p ∈ fsm.reachable) :
    fsm.removeNonReachableStates.makeTransition p a = fsm.makeTransition p a := by
  have hdet' := removeNonReachableStates_deterministic hdet
  refine Option.ext fun q => ?_
  rw [makeTransition_eq_some hdet', mem_removeNonReachableStates_transitions,
    makeTransition_eq_some hdet]
  refine ⟨fun h => h.1, fun h => ⟨h, hp, ?_⟩⟩
  exact reachable_step hsym hp ((makeTransition_eq_some hdet).mpr h)

theorem removeNonReachableStates_accepts (hp : p ∈ fsm.reachable) (w : List Symbol) :
    fsm.removeNonReachableStates.automaton.Accepts p w ↔ fsm.automaton.Accepts p w := by
  have hm : fsm.automaton.Matched fsm.removeNonReachableStates.automaton (fun _ => True)
      fun q r => q = r ∧ q ∈ fsm.reachable := by
    refine ⟨?_, ?_⟩
    · rintro q _ ⟨rfl, hq⟩
      simp [automaton, mem_removeNonReachableStates_finalStates, hq]
    · rintro q _ a ⟨rfl, hq⟩ -
      simp only [automaton, removeNonReachableStates_makeTransition hsym hdet hq]
      cases h : fsm.makeTransition q a with
      | none => exact .none
      | some r => exact .some ⟨rfl, reachable_step hsym hq h⟩
  exact (hm.accepts ⟨rfl, hp⟩ fun _ _ => trivial).symm

/-- A word leads to each kept state. -/
theorem exists_run_of_reachable (hq : q ∈ fsm.reachable) :
    ∃ w, fsm.removeNonReachableStates.automaton.run fsm.initialState w = some q := by
  have hgen : ∀ q ∈ fsm.reachable, q ∈ fsm.reachable ∧
      ∃ w, fsm.removeNonReachableStates.automaton.run fsm.initialState w = some q := by
    refine reachAlg_of_step (fun q hq => ?_) fun p a q ⟨hp, w, hw⟩ h => ?_
    · cases Finset.mem_singleton.mp hq
      exact ⟨initialState_mem_reachable, [], rfl⟩
    · refine ⟨reachable_step hsym hp h, w ++ [a], PartialAutomaton.run_concat hw ?_⟩
      rw [← removeNonReachableStates_makeTransition hsym hdet hp] at h
      exact h
  exact (hgen q hq).2

end

end FLP.FSM
