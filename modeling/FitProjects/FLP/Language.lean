import FitProjects.FLP.Reachable
import FitProjects.FLP.Reduce

/-! # Language and minimality

The automata that `-t` and `-f` print accept what the input accepts, and the one that `-f` prints is
trimmed and minimal. -/

namespace FLP.FSM

open DataList

variable {fsm wd res : FSM} {table : Map State State}

/-- Every state is reached, every state but the initial one accepts a word, and no two states accept
the same words. -/
structure TrimmedMinimal (fsm : FSM) : Prop where
  reachable : ∀ q ∈ fsm.states, ∃ w, fsm.automaton.run fsm.initialState w = some q
  live : ∀ q ∈ fsm.states, q ≠ fsm.initialState → ∃ w, fsm.automaton.Accepts q w
  distinguished : ∀ p ∈ fsm.states, ∀ q ∈ fsm.states, p ≠ q →
    ∃ w, Xor (fsm.automaton.Accepts p w) (fsm.automaton.Accepts q w)

section
variable (hr : Reduced wd table res)
include hr

theorem Reduced.symbol_mem' (t : Transition) (ht : t ∈ res.transitions) : t.symbol ∈ res.alphabet :=
  hr.alphabet_eq ▸ hr.symbol_mem t ht

theorem Reduced.removeNonReachableStates_accepts {q : State} (hq : q ∈ res.reachable)
    (w : List Symbol) :
    res.removeNonReachableStates.automaton.Accepts q w ↔ res.automaton.Accepts q w :=
  FSM.removeNonReachableStates_accepts hr.symbol_mem' hr.deterministic hq w

/-- The states that remain are names, and all but the initial one are live. -/
theorem Reduced.exists_of_reachable {q : State} (hq : q ∈ res.reachable) :
    ∃ p, ekvState table p = some q ∧ (q ≠ res.initialState → ¬wd.automaton.Dead p) := by
  rcases eq_initialState_or_toState hq with rfl | ⟨t, ht, rfl⟩
  · exact ⟨wd.initialState, hr.initial_name, fun h => (h rfl).elim⟩
  · obtain ⟨p, hp, hlive⟩ := hr.live t ht
    exact ⟨p, hp, fun _ => hlive⟩

theorem Reduced.trimmedMinimal : res.removeNonReachableStates.TrimmedMinimal := by
  refine ⟨fun q hq => ?_, fun q hq hne => ?_, fun p hp q hq hne => ?_⟩
  · rw [mem_removeNonReachableStates_states] at hq
    exact exists_run_of_reachable hr.symbol_mem' hr.deterministic hq
  · rw [mem_removeNonReachableStates_states] at hq
    obtain ⟨x, hx, hlive⟩ := hr.exists_of_reachable hq
    obtain ⟨w, hw⟩ : ∃ w, wd.automaton.Accepts x w := by
      simpa [PartialAutomaton.Dead] using hlive hne
    exact ⟨w, (hr.removeNonReachableStates_accepts hq w).mpr ((hr.accepts hx w).mpr hw)⟩
  · rw [mem_removeNonReachableStates_states] at hp hq
    obtain ⟨x, hx, -⟩ := hr.exists_of_reachable hp
    obtain ⟨y, hy, -⟩ := hr.exists_of_reachable hq
    -- Different names are names of states that are not equivalent.
    have hxy := mt (hr.names.eq_iff hx hy).mpr hne
    simp only [PartialAutomaton.Equivalent, not_forall] at hxy
    obtain ⟨w, -, hw⟩ := hxy
    refine ⟨w, ?_⟩
    rw [xor_iff_not_iff, hr.removeNonReachableStates_accepts hp,
      hr.removeNonReachableStates_accepts hq, hr.accepts hx, hr.accepts hy]
    exact hw

end

/-- `reduceFSM` ends, and neither it nor `removeNonReachableStates` after it changes the language. -/
theorem reduceFSM_accepts (hf : fsm.WellFormed) (hs : sink ∉ fsm.states) :
    ∃ res, fsm.reduceFSM = some res ∧ ∀ w, (res.Accepts w ↔ fsm.Accepts w) ∧
      (res.removeNonReachableStates.Accepts w ↔ fsm.Accepts w) := by
  obtain ⟨res, table, hres, hr⟩ := exists_reduced (complete_wellFSM hf hs)
  have hacc (w : List Symbol) : res.Accepts w ↔ fsm.Accepts w :=
    (hr.accepts hr.initial_name w).trans (wellFSM_accepts hf hs hf.initial_mem w)
  refine ⟨res, hres, fun w => ⟨hacc w, ?_⟩⟩
  rw [← hacc w]
  exact hr.removeNonReachableStates_accepts initialState_mem_reachable w

/-- Two final states that accept the same words, and a word on which the machine gets stuck. -/
def twoFinal : FSM where
  alphabet := ['a', 'b']
  states := [['1'], ['2'], ['3']]
  initialState := ['1']
  finalStates := [['2'], ['3']]
  transitions := [⟨['1'], 'a', ['2']⟩, ⟨['1'], 'b', ['3']⟩, ⟨['2'], 'a', ['3']⟩, ⟨['3'], 'a', ['2']⟩]

theorem twoFinal_wellFormed : twoFinal.WellFormed where
  states_nodup := by decide
  initial_mem := by decide
  final_mem := by decide
  from_mem := by decide
  to_mem := by decide
  deterministic := by unfold Deterministic; decide
  alphabet_nodup := by decide
  alphabet_mem a := by simp [twoFinal, or_comm]; tauto

theorem reduceFSM_accepts_twoFinal : ∃ res, twoFinal.reduceFSM = some res ∧
    ∀ w, (res.Accepts w ↔ twoFinal.Accepts w) ∧
      (res.removeNonReachableStates.Accepts w ↔ twoFinal.Accepts w) :=
  reduceFSM_accepts twoFinal_wellFormed (by decide)

/-- `removeNonReachableStates` after `reduceFSM` makes the trimmed minimal automaton. -/
theorem reduceFSM_trimmedMinimal (hf : fsm.WellFormed) (hs : sink ∉ fsm.states) :
    ∃ res, fsm.reduceFSM = some res ∧ res.removeNonReachableStates.TrimmedMinimal := by
  obtain ⟨res, table, hres, hr⟩ := exists_reduced (complete_wellFSM hf hs)
  exact ⟨res, hres, hr.trimmedMinimal⟩

theorem reduceFSM_trimmedMinimal_twoFinal :
    ∃ res, twoFinal.reduceFSM = some res ∧ res.removeNonReachableStates.TrimmedMinimal :=
  reduceFSM_trimmedMinimal twoFinal_wellFormed (by decide)

end FLP.FSM
