import FitProjects.FLP.Equivalence
import FitProjects.Lib.WordEquivalence

/-! # The rounds of the refinement

After `n` rounds of `nextEq` the pairs are those of the states that words of at most `n` symbols
cannot tell apart. The recursion of `lastEqClass` therefore stops within fewer rounds than there are
states, with the pairs of states from which every word reaches two final states or two others. -/

namespace FLP.FSM

variable {fsm : FSM} {fclass : List (State × State)} {p q : State} {n : Nat}

/-- `lastEqClass` stops after `n` rounds: the first `n` rounds change the pairs, the next one does
not. -/
structure StopsAfter (fsm : FSM) (fclass : List (State × State)) (n : Nat) : Prop where
  ne : ∀ k < n, fsm.nextEq (fsm.nextEq^[k] fclass) ≠ fsm.nextEq^[k] fclass
  eq : fsm.nextEq (fsm.nextEq^[n] fclass) = fsm.nextEq^[n] fclass

/-- Every transition is there, and leads to a state. -/
def Total (fsm : FSM) : Prop :=
  ∀ p ∈ fsm.states, ∀ a ∈ fsm.alphabet, ∃ q ∈ fsm.states, fsm.makeTransition p a = some q

/-- Every word leads from `p` and from `q` to two final states or to two that are not final. -/
def Indistinguishable (fsm : FSM) (p q : State) : Prop :=
  ∀ w, (∀ a ∈ w, a ∈ fsm.alphabet) → ∃ p' q', fsm.automaton.run p w = some p' ∧
    fsm.automaton.run q w = some q' ∧ (p' ∈ fsm.finalStates ↔ q' ∈ fsm.finalStates)

/-- The recursion ends, whatever it starts from. -/
theorem exists_stopsAfter (fsm : FSM) (fclass : List (State × State)) :
    ∃ n, fsm.StopsAfter fclass n ∧ fsm.lastEqClass fclass = fsm.nextEq^[n] fclass := by
  induction fclass using lastEqClass.induct fsm with
  | case1 fclass h =>
    rw [lastEqClass, if_pos h]
    exact ⟨0, ⟨fun k hk => absurd hk (Nat.not_lt_zero k), h⟩, rfl⟩
  | case2 fclass h ih =>
    obtain ⟨n, hstops, hlast⟩ := ih
    rw [lastEqClass, if_neg h]
    refine ⟨n + 1, ⟨fun k hk => ?_, hstops.eq⟩, hlast⟩
    cases k with
    | zero => exact h
    | succ k => exact hstops.ne k (Nat.lt_of_succ_lt_succ hk)

theorem ordered_zeroEq (fsm : FSM) : fsm.ordered fsm.zeroEq = fsm.zeroEq := by
  refine List.filter_congr fun e he => ?_
  simp [zeroEq, he]

theorem ordered_iterate_nextEq (fsm : FSM) (n : Nat) :
    fsm.ordered (fsm.nextEq^[n] fsm.zeroEq) = fsm.nextEq^[n] fsm.zeroEq := by
  cases n with
  | zero => exact fsm.ordered_zeroEq
  | succ n =>
    rw [Function.iterate_succ_apply']
    exact fsm.ordered_nextEq _

/-- A round that keeps all pairs keeps the list. -/
theorem nextEq_iterate_of_subset
    (h : fsm.nextEq^[n] fsm.zeroEq ⊆ fsm.nextEq (fsm.nextEq^[n] fsm.zeroEq)) :
    fsm.nextEq (fsm.nextEq^[n] fsm.zeroEq) = fsm.nextEq^[n] fsm.zeroEq := by
  rw [← ordered_nextEq, ← ordered_iterate_nextEq]
  refine List.filter_congr fun e _ => ?_
  rw [decide_eq_decide, ordered_iterate_nextEq]
  exact ⟨fun he => (mem_nextEq.mp he).2.2.1, fun he => h he⟩

namespace Total

variable (h : fsm.Total)
include h

theorem automaton : fsm.automaton.Total (· ∈ fsm.alphabet) fsm.states.toFinset := by
  intro p hp a ha
  obtain ⟨q, hq, hstep⟩ := h p (List.mem_toFinset.mp hp) a ha
  exact ⟨q, List.mem_toFinset.mpr hq, hstep⟩

theorem mem_states (hp : p ∈ fsm.states) (ha : a ∈ fsm.alphabet)
    (hstep : fsm.makeTransition p a = some q) : q ∈ fsm.states := by
  obtain ⟨r, hr, hr'⟩ := h p hp a ha
  obtain rfl := Option.some.inj (hstep.symm.trans hr')
  exact hr

/-- The pairs after `n` rounds. -/
theorem mem_iterate_nextEq : (p, q) ∈ fsm.nextEq^[n] fsm.zeroEq ↔ p ∈ fsm.states ∧
    q ∈ fsm.states ∧ fsm.automaton.EquivalentUpTo (· ∈ fsm.alphabet) n p q := by
  induction n generalizing p q with
  | zero =>
    rw [Function.iterate_zero_apply, mem_zeroEq, PartialAutomaton.equivalentUpTo_zero]
    rfl
  | succ n ih =>
    have hsteps (hp : p ∈ fsm.states) (hq : q ∈ fsm.states) : ∀ a ∈ fsm.alphabet,
        ∃ p' q', fsm.automaton.step p a = some p' ∧ fsm.automaton.step q a = some q' := by
      intro a ha
      obtain ⟨p', -, hpa⟩ := h p hp a ha
      obtain ⟨q', -, hqa⟩ := h q hq a ha
      exact ⟨p', q', hpa, hqa⟩
    rw [Function.iterate_succ_apply', mem_nextEq, ih]
    constructor
    · rintro ⟨hp, hq, ⟨-, -, hpq⟩, hsame⟩
      rw [PartialAutomaton.equivalentUpTo_succ (hsteps hp hq)]
      refine ⟨hp, hq, hpq, fun a ha => ?_⟩
      obtain ⟨p', q', hpa, hqa, he⟩ := inSameClass_eq_true.mp (hsame a ha)
      exact ⟨p', q', hpa, hqa, (ih.mp he).2.2⟩
    · rintro ⟨hp, hq, he⟩
      rw [PartialAutomaton.equivalentUpTo_succ (hsteps hp hq)] at he
      obtain ⟨hpq, hsame⟩ := he
      refine ⟨hp, hq, ⟨hp, hq, hpq⟩, fun a ha => inSameClass_eq_true.mpr ?_⟩
      obtain ⟨p', q', hpa, hqa, he'⟩ := hsame a ha
      exact ⟨p', q', hpa, hqa, ih.mpr ⟨h.mem_states hp ha hpa, h.mem_states hq ha hqa, he'⟩⟩

/-- A round that takes a pair away has found a word that tells two states apart. -/
theorem exists_refined (hne : fsm.nextEq (fsm.nextEq^[n] fsm.zeroEq) ≠ fsm.nextEq^[n] fsm.zeroEq) :
    ∃ p ∈ fsm.states, ∃ q ∈ fsm.states,
      fsm.automaton.EquivalentUpTo (· ∈ fsm.alphabet) n p q ∧
        ¬ fsm.automaton.EquivalentUpTo (· ∈ fsm.alphabet) (n + 1) p q := by
  have hsucc : fsm.nextEq^[n + 1] fsm.zeroEq = fsm.nextEq (fsm.nextEq^[n] fsm.zeroEq) :=
    Function.iterate_succ_apply' ..
  by_contra hstable
  apply hne
  apply nextEq_iterate_of_subset
  rintro ⟨p, q⟩ he
  obtain ⟨hp, hq, hpq⟩ := h.mem_iterate_nextEq.mp he
  rw [← hsucc, h.mem_iterate_nextEq]
  refine ⟨hp, hq, ?_⟩
  by_contra hnot
  exact hstable ⟨p, hp, q, hq, hpq, hnot⟩

/-- The recursion stops within fewer rounds than there are states. -/
theorem le_of_stopsAfter (hn : fsm.StopsAfter fsm.zeroEq n) : n ≤ fsm.states.length - 1 := by
  cases n with
  | zero => exact Nat.zero_le _
  | succ n =>
    have hrefined : ∀ k < n + 1, ∃ p ∈ fsm.states.toFinset, ∃ q ∈ fsm.states.toFinset,
        fsm.automaton.EquivalentUpTo (· ∈ fsm.alphabet) k p q ∧
          ¬ fsm.automaton.EquivalentUpTo (· ∈ fsm.alphabet) (k + 1) p q := by
      intro k hk
      simpa only [List.mem_toFinset] using h.exists_refined (hn.ne k hk)
    obtain ⟨p, hp, -⟩ := hrefined 0 (Nat.succ_pos n)
    have hlt := PartialAutomaton.lt_card_of_refined ⟨p, hp⟩ hrefined
    have hcard := fsm.states.toFinset_card_le
    omega

theorem indistinguishable_iff (hp : p ∈ fsm.states) (hq : q ∈ fsm.states) :
    fsm.Indistinguishable p q ↔ fsm.automaton.Equivalent (· ∈ fsm.alphabet) p q :=
  (h.automaton.equivalent_iff_run (List.mem_toFinset.mpr hp) (List.mem_toFinset.mpr hq)).symm

end Total

/-- On a total machine `lastEqClass` stops within fewer rounds than there are states, and what is
left are the pairs of states that no word tells apart. -/
theorem lastEqClass_zeroEq_spec (h : fsm.Total) :
    (∃ n ≤ fsm.states.length - 1, fsm.StopsAfter fsm.zeroEq n ∧
        fsm.lastEqClass fsm.zeroEq = fsm.nextEq^[n] fsm.zeroEq) ∧
      ∀ p q, (p, q) ∈ fsm.lastEqClass fsm.zeroEq ↔
        p ∈ fsm.states ∧ q ∈ fsm.states ∧ fsm.Indistinguishable p q := by
  constructor
  · obtain ⟨n, hstops, hlast⟩ := fsm.exists_stopsAfter fsm.zeroEq
    exact ⟨n, h.le_of_stopsAfter hstops, hstops, hlast⟩
  · intro p q
    rw [mem_lastEqClass_zeroEq h]
    refine and_congr_right fun hp => and_congr_right fun hq => ?_
    rw [h.indistinguishable_iff hp hq]

/-- Symbol `a` leads from the first state to the last two, and keeps these. -/
def twins : FSM where
  alphabet := ['a']
  states := [['1'], ['2'], ['3']]
  initialState := ['1']
  finalStates := [['2'], ['3']]
  transitions := [⟨['1'], 'a', ['2']⟩, ⟨['2'], 'a', ['3']⟩, ⟨['3'], 'a', ['2']⟩]

theorem total_twins : twins.Total := by
  simp [Total, twins, makeTransition]

theorem lastEqClass_zeroEq_twins :
    (∃ n ≤ 2, twins.StopsAfter twins.zeroEq n ∧
        twins.lastEqClass twins.zeroEq = twins.nextEq^[n] twins.zeroEq) ∧
      ((['2'], ['3']) ∈ twins.lastEqClass twins.zeroEq ↔
        ['2'] ∈ twins.states ∧ ['3'] ∈ twins.states ∧ twins.Indistinguishable ['2'] ['3']) :=
  ⟨(lastEqClass_zeroEq_spec total_twins).1, (lastEqClass_zeroEq_spec total_twins).2 ['2'] ['3']⟩

end FLP.FSM
