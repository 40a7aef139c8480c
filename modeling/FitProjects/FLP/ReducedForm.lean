import FitProjects.FLP.Language

/-! # The form of the reduced automaton

What `reduceFSM` returns is a well-formed automaton again, unless the class of states that it
deletes is the one of the initial state. -/

namespace FLP.FSM

open DataList

variable {fsm wd red : FSM} {table : Map State State} {s : State}

/-- Everything the automaton refers to is among its states, and no two transitions have the same
source and symbol. -/
structure Sound (fsm : FSM) : Prop where
  states_nodup : fsm.states.Nodup
  initial_mem : fsm.initialState ∈ fsm.states
  final_mem : ∀ q ∈ fsm.finalStates, q ∈ fsm.states
  from_mem : ∀ t ∈ fsm.transitions, t.fromState ∈ fsm.states
  to_mem : ∀ t ∈ fsm.transitions, t.toState ∈ fsm.states
  unique : fsm.transitions.Pairwise fun t t' => ¬(t.fromState = t'.fromState ∧ t.symbol = t'.symbol)

theorem pairwise_of_deterministic (hdet : fsm.Deterministic) (hnodup : fsm.transitions.Nodup) :
    fsm.transitions.Pairwise fun t t' => ¬(t.fromState = t'.fromState ∧ t.symbol = t'.symbol) := by
  refine hnodup.imp_of_mem fun {t t'} ht ht' hne heq => hne ?_
  obtain ⟨p, a, q⟩ := t
  obtain ⟨p', a', q'⟩ := t'
  obtain ⟨rfl, rfl⟩ := heq
  obtain rfl := hdet _ ht _ ht' rfl rfl
  rfl

theorem nodup_sort [LinearOrder α] {l : List α} (h : l.Nodup) : (sort l).Nodup :=
  (sortOn_perm id l).nodup_iff.mpr h

/-- The renamed automaton is sound. -/
theorem rename_sound (hn : Names wd table) (hc : wd.Complete) : (wd.rename table).Sound where
  states_nodup := nodup_sort (nodup_eraseDups _)
  initial_mem := (mem_rename_states hn).mpr ⟨_, rename_initialState hn hc⟩
  final_mem q hq := by
    simp only [rename, List.mem_eraseDups, List.mem_filterMap] at hq
    obtain ⟨p, -, hp⟩ := hq
    exact (mem_rename_states hn).mpr ⟨p, hp⟩
  from_mem t ht := by
    obtain ⟨p, hp⟩ := ekvState_fromState ht
    exact (mem_rename_states hn).mpr ⟨p, hp⟩
  to_mem t ht := by
    obtain ⟨q, hq⟩ := ekvState_toState ht
    exact (mem_rename_states hn).mpr ⟨q, hq⟩
  unique := pairwise_of_deterministic (rename_deterministic hn) (nodup_sort (nodup_eraseDups _))

/-- Deleting a state that is neither initial nor final keeps an automaton sound. -/
theorem Sound.deleteState (h : red.Sound) (hinitial : red.initialState ≠ s)
    (hfinal : s ∉ red.finalStates) : (red.deleteState s).Sound where
  states_nodup := h.states_nodup.filter _
  initial_mem := List.mem_filter.mpr ⟨h.initial_mem, decide_eq_true hinitial⟩
  final_mem q hq := by
    refine List.mem_filter.mpr ⟨h.final_mem q hq, decide_eq_true ?_⟩
    rintro rfl
    exact hfinal hq
  from_mem t ht := by
    obtain ⟨ht, -, hfrom⟩ := mem_deleteState_transitions.mp ht
    exact List.mem_filter.mpr ⟨h.from_mem t ht, by simpa using hfrom⟩
  to_mem t ht := by
    obtain ⟨ht, hto, -⟩ := mem_deleteState_transitions.mp ht
    exact List.mem_filter.mpr ⟨h.to_mem t ht, by simpa using hto⟩
  unique := h.unique.filter _

/-- On a complete automaton, the result is sound unless the initial state accepts nothing. -/
theorem sound_iff_of_complete (hc : fsm.wellFSM.Complete) :
    (∃ res, fsm.reduceFSM = some res ∧ res.Sound) ↔
      ¬fsm.wellFSM.automaton.Dead fsm.wellFSM.initialState := by
  obtain ⟨gs, hgs, hn⟩ := exists_names hc
  let red := fsm.wellFSM.rename (newStates gs)
  have hred : fsm.reduceFSM' = some red := by simp only [reduceFSM', hgs, Option.map_some]; rfl
  have hinitial := rename_initialState hn hc
  have hsound : red.Sound := rename_sound hn hc
  have hsink : ∀ {p r : State}, ekvState (newStates gs) p = some r →
      (red.isSinkState r = true ↔ fsm.wellFSM.automaton.Dead p) :=
    fun hp => (isSinkState_iff hn hc hp).trans (dead_iff hn hc hp)
  cases hfind : red.states.find? red.isSinkState with
  | none =>
    have hres : fsm.reduceFSM = some red := by
      simp only [reduceFSM, hred, Option.map_some, hfind]
    refine ⟨fun _ hd => ?_, fun _ => ⟨red, hres, hsound⟩⟩
    exact List.find?_eq_none.mp hfind _ hsound.initial_mem ((hsink hinitial).mpr hd)
  | some s =>
    have hres : fsm.reduceFSM = some (red.deleteState s) := by
      simp only [reduceFSM, hred, Option.map_some, hfind]
    obtain ⟨p, hp⟩ := (mem_rename_states hn).mp (List.mem_of_find?_eq_some hfind)
    have hdead : fsm.wellFSM.automaton.Dead p := (hsink hp).mp (List.find?_some hfind)
    constructor
    · rintro ⟨res, h, hres'⟩ hd
      obtain rfl : red.deleteState s = res := Option.some.inj (hres.symm.trans h)
      -- the initial state has the name that is deleted
      have hname : red.initialState = s := (hn.eq_iff hinitial hp).mpr (hd.equivalent hdead)
      exact of_decide_eq_true (List.mem_filter.mp hres'.initial_mem).2 hname
    · intro hlive
      refine ⟨_, hres, hsound.deleteState (fun hname => hlive ?_) fun hfinal => ?_⟩
      · exact (hsink hinitial).mp (hname ▸ List.find?_some hfind)
      · exact hdead.not_accept ((rename_final hn hp).mp hfinal)

/-- The reduced automaton is sound exactly when the automaton accepts a word. -/
theorem reduceFSM_sound_iff (hf : fsm.WellFormed) (hs : sink ∉ fsm.states) :
    (∃ res, fsm.reduceFSM = some res ∧ res.Sound) ↔ ∃ w, fsm.Accepts w := by
  rw [sound_iff_of_complete (complete_wellFSM hf hs), PartialAutomaton.Dead, not_forall]
  refine exists_congr fun w => ?_
  rw [not_not]
  exact wellFSM_accepts hf hs hf.initial_mem w

theorem reduceFSM_sound_iff_twoFinal :
    (∃ res, twoFinal.reduceFSM = some res ∧ res.Sound) ↔ ∃ w, twoFinal.Accepts w :=
  reduceFSM_sound_iff twoFinal_wellFormed (by decide)

/-- A machine whose final state is not reachable. -/
def unreachableFinal : FSM where
  alphabet := ['a']
  states := [['1'], ['2']]
  initialState := ['1']
  finalStates := [['2']]
  transitions := [⟨['1'], 'a', ['1']⟩]

theorem unreachableFinal_wellFormed : unreachableFinal.WellFormed where
  states_nodup := by decide
  initial_mem := by decide
  final_mem := by decide
  from_mem := by decide
  to_mem := by decide
  deterministic := by unfold Deterministic; decide
  alphabet_nodup := by decide
  alphabet_mem a := by simp [unreachableFinal, eq_comm]

theorem unreachableFinal_run {w : List Symbol} {q : State}
    (h : unreachableFinal.automaton.run ['1'] w = some q) : q = ['1'] := by
  induction w with
  | nil => exact (Option.some.inj h).symm
  | cons a w ih =>
    obtain ⟨r, hstep, hrun⟩ := Option.bind_eq_some_iff.mp h
    obtain rfl : r = ['1'] :=
      congrArg Transition.toState (List.mem_singleton.mp (mem_of_makeTransition hstep))
    exact ih hrun

/-- The initial state of a machine that accepts nothing is deleted. -/
theorem unreachableFinal_not_sound : ¬ ∀ fsm : FSM, fsm.WellFormed → sink ∉ fsm.states →
    ∃ res, fsm.reduceFSM = some res ∧ res.Sound := by
  intro h
  have hf := unreachableFinal_wellFormed
  have hs : sink ∉ unreachableFinal.states := by decide
  refine (sound_iff_of_complete (complete_wellFSM hf hs)).mp (h _ hf hs) fun w hw => ?_
  obtain ⟨q, hrun, hq⟩ := (wellFSM_accepts hf hs hf.initial_mem w).mp hw
  rw [unreachableFinal_run hrun] at hq
  exact absurd (List.mem_singleton.mp hq) (by decide)

end FLP.FSM
