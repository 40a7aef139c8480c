import FitProjects.FLP.Minimize

/-! # The refinement of equivalences

`lastEqClass` starts with the pairs that agree on being final and ends, on a total machine, with the
pairs of states that accept the same words. -/

namespace FLP.FSM

variable {fsm : FSM} {fclass : List (State × State)} {p q : State} {a : Symbol}

theorem mem_zeroEq : (p, q) ∈ fsm.zeroEq ↔
    p ∈ fsm.states ∧ q ∈ fsm.states ∧ (p ∈ fsm.finalStates ↔ q ∈ fsm.finalStates) := by
  simp [zeroEq, and_assoc]

theorem mem_nextEq : (p, q) ∈ fsm.nextEq fclass ↔ p ∈ fsm.states ∧ q ∈ fsm.states ∧
    (p, q) ∈ fclass ∧ ∀ a ∈ fsm.alphabet, fsm.inSameClass fclass p q a = true := by
  simp [nextEq, ekvTrans, and_assoc]

theorem inSameClass_eq_true : fsm.inSameClass fclass p q a = true ↔
    ∃ p' q', fsm.makeTransition p a = some p' ∧ fsm.makeTransition q a = some q' ∧
      (p', q') ∈ fclass := by
  unfold inSameClass
  cases fsm.makeTransition p a <;> cases fsm.makeTransition q a <;> simp

theorem nextEq_lastEqClass : fsm.nextEq (fsm.lastEqClass fclass) = fsm.lastEqClass fclass := by
  induction fclass using lastEqClass.induct fsm with
  | case1 fclass h =>
    rw [lastEqClass, if_pos h]
    exact h
  | case2 fclass h ih => rwa [lastEqClass, if_neg h]

theorem lastEqClass_subset : fsm.lastEqClass fclass ⊆ fclass := by
  induction fclass using lastEqClass.induct fsm with
  | case1 fclass h => rw [lastEqClass, if_pos h]; exact List.Subset.refl _
  | case2 fclass h ih =>
    rw [lastEqClass, if_neg h]
    exact List.Subset.trans ih fun ⟨p, q⟩ he => (mem_nextEq.mp he).2.2.1

/-- What the refinement keeps is kept to its end. -/
theorem lastEqClass_of_nextEq {P : List (State × State) → Prop}
    (hnext : ∀ fclass, P fclass → P (fsm.nextEq fclass)) (h : P fclass) :
    P (fsm.lastEqClass fclass) := by
  induction fclass using lastEqClass.induct fsm with
  | case1 fclass hf => rwa [lastEqClass, if_pos hf]
  | case2 fclass hf ih =>
    rw [lastEqClass, if_neg hf]
    exact ih (hnext fclass h)

/-- The last classes are kept by the transitions. -/
theorem matched_lastEqClass : fsm.automaton.Matched fsm.automaton (· ∈ fsm.alphabet)
    fun p q => (p, q) ∈ fsm.lastEqClass fsm.zeroEq := by
  refine ⟨fun h => (mem_zeroEq.mp (lastEqClass_subset h)).2.2, fun h ha => ?_⟩
  rw [← nextEq_lastEqClass] at h
  obtain ⟨p', q', hp, hq, he⟩ := inSameClass_eq_true.mp ((mem_nextEq.mp h).2.2.2 _ ha)
  simp only [automaton, hp, hq]
  exact .some he

/-- On a total machine the last classes are those of the states that accept the same words. -/
theorem mem_lastEqClass_zeroEq (htotal : ∀ p ∈ fsm.states, ∀ a ∈ fsm.alphabet,
      ∃ q ∈ fsm.states, fsm.makeTransition p a = some q) :
    (p, q) ∈ fsm.lastEqClass fsm.zeroEq ↔ p ∈ fsm.states ∧ q ∈ fsm.states ∧
      fsm.automaton.Equivalent (· ∈ fsm.alphabet) p q := by
  constructor
  · intro h
    obtain ⟨hp, hq, -⟩ := mem_zeroEq.mp (lastEqClass_subset h)
    exact ⟨hp, hq, fun w hw => matched_lastEqClass.accepts h hw⟩
  · suffices h : ∀ p ∈ fsm.states, ∀ q ∈ fsm.states,
        fsm.automaton.Equivalent (· ∈ fsm.alphabet) p q → (p, q) ∈ fsm.lastEqClass fsm.zeroEq from
      fun ⟨hp, hq, he⟩ => h p hp q hq he
    refine lastEqClass_of_nextEq (P := fun c => ∀ p ∈ fsm.states, ∀ q ∈ fsm.states,
      fsm.automaton.Equivalent (· ∈ fsm.alphabet) p q → (p, q) ∈ c) ?_ ?_
    · intro fclass ih p hp q hq he
      refine mem_nextEq.mpr ⟨hp, hq, ih p hp q hq he, fun a ha => inSameClass_eq_true.mpr ?_⟩
      obtain ⟨p', hp', hpa⟩ := htotal p hp a ha
      obtain ⟨q', hq', hqa⟩ := htotal q hq a ha
      exact ⟨p', q', hpa, hqa, ih p' hp' q' hq' (he.step ha hpa hqa)⟩
    · intro p hp q hq he
      exact mem_zeroEq.mpr ⟨hp, hq, by simpa [automaton] using he [] (by simp)⟩

end FLP.FSM
