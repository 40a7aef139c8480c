import FitProjects.FLP.Minimize

/-! # Completion

`wellFSM` makes a well-formed automaton complete, and what it accepts does not change: the words
that got stuck now end in `SINK`. -/

namespace FLP.FSM

variable {fsm : FSM} {p q : State} {a : Symbol} {t : Transition}

/-- Every state has exactly one transition for each symbol. -/
structure Complete (fsm : FSM) : Prop where
  states_nodup : fsm.states.Nodup
  initial_mem : fsm.initialState ∈ fsm.states
  final_mem : ∀ q ∈ fsm.finalStates, q ∈ fsm.states
  deterministic : fsm.Deterministic
  symbol_mem : ∀ t ∈ fsm.transitions, t.symbol ∈ fsm.alphabet
  total : ∀ p ∈ fsm.states, ∀ a ∈ fsm.alphabet, ∃ q ∈ fsm.states, fsm.makeTransition p a = some q

theorem Complete.mem_of_makeTransition (hc : fsm.Complete) (hp : p ∈ fsm.states)
    (h : fsm.makeTransition p a = some q) : a ∈ fsm.alphabet ∧ q ∈ fsm.states := by
  have ha := hc.symbol_mem _ (FSM.mem_of_makeTransition h)
  obtain ⟨r, hr, hm⟩ := hc.total p hp a ha
  rw [h] at hm
  cases hm
  exact ⟨ha, hr⟩

theorem makeTransition_of_not_mem (h : ∀ t ∈ fsm.transitions, t.symbol ∈ fsm.alphabet)
    (ha : a ∉ fsm.alphabet) : fsm.makeTransition p a = none :=
  makeTransition_eq_none.mpr fun _ hq => ha (h _ hq)

theorem mem_wellFSM_states (h : p ∈ fsm.wellFSM.states) : p ∈ fsm.states ∨ p = sink := by
  simp only [wellFSM] at h
  split_ifs at h
  · exact .inl h
  · simpa using h

theorem subset_wellFSM_states (h : p ∈ fsm.states) : p ∈ fsm.wellFSM.states := by
  simp only [wellFSM]
  split_ifs
  · exact h
  · exact List.mem_append_left _ h

section
variable (hf : fsm.WellFormed)
include hf

theorem mem_wellTransitions : t ∈ fsm.wellTransitions ↔ t.fromState ∈ fsm.states ∧
    t.symbol ∈ fsm.alphabet ∧ t.toState = sink ∧
    fsm.makeTransition t.fromState t.symbol = none := by
  obtain ⟨p, a, q⟩ := t
  have hnodup : (fsm.states.product fsm.alphabet).Nodup := hf.states_nodup.product hf.alphabet_nodup
  simp only [wellTransitions, missing, List.mem_map, hnodup.mem_sdiff_iff, Transition.mk.injEq,
    makeTransition_eq_none, Prod.exists]
  constructor
  · rintro ⟨p, a, ⟨hmem, hnone⟩, rfl, rfl, rfl⟩
    obtain ⟨hp, ha⟩ := List.pair_mem_product.mp hmem
    exact ⟨hp, ha, rfl, fun q hq => hnone ⟨_, hq, rfl⟩⟩
  · rintro ⟨hp, ha, rfl, hnone⟩
    refine ⟨p, a, ⟨List.pair_mem_product.mpr ⟨hp, ha⟩, ?_⟩, rfl, rfl, rfl⟩
    rintro ⟨⟨p', a', q'⟩, ht, heq⟩
    cases heq
    exact hnone _ ht

theorem mem_wellFSM_transitions : t ∈ fsm.wellFSM.transitions ↔ t ∈ fsm.transitions ∨
    (t.fromState ∈ fsm.states ∧ t.symbol ∈ fsm.alphabet ∧ t.toState = sink ∧
      fsm.makeTransition t.fromState t.symbol = none) ∨
    t.fromState = sink ∧ t.symbol ∈ fsm.alphabet ∧ t.toState = sink := by
  simp only [wellFSM, DataList.mem_sort, List.mem_append, mem_wellTransitions hf, or_assoc]
  refine or_congr_right (or_congr_right ?_)
  obtain ⟨p, a, q⟩ := t
  simp only [sinkTransitions, List.mem_map, Transition.mk.injEq]
  constructor
  · rintro ⟨a, ha, rfl, rfl, rfl⟩
    exact ⟨rfl, ha, rfl⟩
  · rintro ⟨rfl, ha, rfl⟩
    exact ⟨a, ha, rfl, rfl, rfl⟩

/-- `SINK` is a state as soon as a transition to it is needed. -/
theorem sink_mem_wellFSM (hp : p ∈ fsm.states) (ha : a ∈ fsm.alphabet)
    (h : fsm.makeTransition p a = none) : sink ∈ fsm.wellFSM.states := by
  have ht : ⟨p, a, sink⟩ ∈ fsm.wellTransitions := (mem_wellTransitions hf).mpr ⟨hp, ha, rfl, h⟩
  have hne : fsm.wellTransitions.isEmpty = false := by
    cases hw : fsm.wellTransitions with
    | nil => simp [hw] at ht
    | cons => rfl
  simp [wellFSM, hne]

theorem wellFSM_symbol_mem (t : Transition) (ht : t ∈ fsm.wellFSM.transitions) :
    t.symbol ∈ fsm.alphabet := by
  rcases (mem_wellFSM_transitions hf).mp ht with ht | ⟨-, ha, -⟩ | ⟨-, ha, -⟩
  · exact (hf.alphabet_mem _).mpr ⟨t, ht, rfl⟩
  · exact ha
  · exact ha

variable (hs : sink ∉ fsm.states)
include hs

theorem wellFSM_deterministic : fsm.wellFSM.Deterministic := by
  have hnone {p a q} (h : fsm.makeTransition p a = none) (ht : ⟨p, a, q⟩ ∈ fsm.transitions) :
      False := makeTransition_eq_none.mp h q ht
  rintro ⟨p, a, q⟩ ht ⟨p', a', q'⟩ ht' hp ha
  simp only at hp ha
  subst hp ha
  rw [mem_wellFSM_transitions hf] at ht ht'
  rcases ht with ht | ⟨hp, ha, rfl, hn⟩ | ⟨rfl, ha, rfl⟩ <;>
    rcases ht' with ht' | ⟨hp', ha', rfl, hn'⟩ | ⟨hp', ha', rfl⟩
  case inl.inl => exact hf.deterministic _ ht _ ht' rfl rfl
  case inl.inr.inl => exact (hnone hn' ht).elim
  case inr.inl.inl => exact (hnone hn ht').elim
  case inl.inr.inr => exact (hs (by simpa [← hp'] using hf.from_mem _ ht)).elim
  case inr.inr.inl => exact (hs (hf.from_mem _ ht')).elim
  all_goals rfl

theorem wellFSM_makeTransition (h : fsm.makeTransition p a = some q) :
    fsm.wellFSM.makeTransition p a = some q := by
  rw [makeTransition_eq_some (wellFSM_deterministic hf hs), mem_wellFSM_transitions hf]
  exact .inl (mem_of_makeTransition h)

theorem wellFSM_makeTransition_none (hp : p ∈ fsm.states) (ha : a ∈ fsm.alphabet)
    (h : fsm.makeTransition p a = none) : fsm.wellFSM.makeTransition p a = some sink := by
  rw [makeTransition_eq_some (wellFSM_deterministic hf hs), mem_wellFSM_transitions hf]
  exact .inr (.inl ⟨hp, ha, rfl, h⟩)

theorem wellFSM_makeTransition_sink (ha : a ∈ fsm.alphabet) :
    fsm.wellFSM.makeTransition sink a = some sink := by
  rw [makeTransition_eq_some (wellFSM_deterministic hf hs), mem_wellFSM_transitions hf]
  exact .inr (.inr ⟨rfl, ha, rfl⟩)

theorem complete_wellFSM : fsm.wellFSM.Complete where
  states_nodup := by
    simp only [wellFSM]
    split_ifs
    · exact hf.states_nodup
    · exact hf.states_nodup.append (List.nodup_singleton _) (by simpa using hs)
  initial_mem := subset_wellFSM_states hf.initial_mem
  final_mem q hq := subset_wellFSM_states (hf.final_mem q hq)
  deterministic := wellFSM_deterministic hf hs
  symbol_mem := wellFSM_symbol_mem hf
  total p hp a ha := by
    rcases mem_wellFSM_states hp with hp | rfl
    · cases hm : fsm.makeTransition p a with
      | none =>
        exact ⟨sink, sink_mem_wellFSM hf hp ha hm, wellFSM_makeTransition_none hf hs hp ha hm⟩
      | some q =>
        exact ⟨q, subset_wellFSM_states (hf.to_mem _ (mem_of_makeTransition hm)),
          wellFSM_makeTransition hf hs hm⟩
    · exact ⟨sink, hp, wellFSM_makeTransition_sink hf hs ha⟩

theorem dead_sink : fsm.wellFSM.automaton.Dead sink := by
  refine .of_closed (D := (· = sink)) ?_ ?_ rfl
  · rintro q rfl hq
    exact hs (hf.final_mem sink hq)
  · rintro q a q' rfl h
    have ha := wellFSM_symbol_mem hf _ (mem_of_makeTransition h)
    have h' := wellFSM_makeTransition_sink hf hs ha
    exact Option.some.inj (h.symm.trans h')

/-- Completion does not change what a state accepts. -/
theorem wellFSM_accepts (hp : p ∈ fsm.states) (w : List Symbol) :
    fsm.wellFSM.automaton.Accepts p w ↔ fsm.automaton.Accepts p w := by
  have hm : fsm.automaton.Matched fsm.wellFSM.automaton (fun _ => True)
      fun q r => q = r ∧ q ∈ fsm.states := by
    refine ⟨fun h => by rw [h.1]; rfl, ?_⟩
    rintro q _ a ⟨rfl, hq⟩ -
    simp only [automaton]
    cases h : fsm.makeTransition q a with
    | some r =>
      rw [wellFSM_makeTransition hf hs h]
      exact .some ⟨rfl, hf.to_mem _ (mem_of_makeTransition h)⟩
    | none =>
      by_cases ha : a ∈ fsm.alphabet
      · rw [wellFSM_makeTransition_none hf hs hq ha h]
        exact .right (dead_sink hf hs)
      · rw [makeTransition_of_not_mem (wellFSM_symbol_mem hf) ha]
        exact .none
  exact (hm.accepts ⟨rfl, hp⟩ fun _ _ => trivial).symm

end

end FLP.FSM
