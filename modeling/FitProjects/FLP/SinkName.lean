import FitProjects.FLP.Language

/-! # A state that is called like the added one

`wellFSM` adds the state `SINK` and its loops without asking whether the automaton has a state of
that name. If it has one, the loops compete with its own transitions: `makeTransition` takes the
first transition of the sorted list, the one with the least target. -/

namespace FLP.FSM

open DataList

variable {fsm : FSM} {p q : State} {a : Symbol}

/-- The completed automaton has each state once, has a transition for every state and symbol, and
accepts what the automaton accepts. -/
structure WellDefined (fsm : FSM) : Prop where
  states_nodup : fsm.wellFSM.states.Nodup
  total : ∀ p ∈ fsm.wellFSM.states, ∀ a ∈ fsm.wellFSM.alphabet,
    ∃ q, fsm.wellFSM.makeTransition p a = some q
  accepts : ∀ w, fsm.wellFSM.Accepts w ↔ fsm.Accepts w

/-- A state called `SINK` does no harm in an automaton that needs no completion if it is not
reachable, or if its transitions to greater names go to states that accept what it accepts. -/
structure HarmlessSink (fsm : FSM) : Prop where
  total : ∀ p ∈ fsm.states, ∀ a ∈ fsm.alphabet, ∃ q, fsm.makeTransition p a = some q
  loops : (∃ u, fsm.automaton.run fsm.initialState u = some sink) →
    ∀ a q, fsm.makeTransition sink a = some q → sink < q →
      ∀ w, fsm.automaton.Accepts q w ↔ fsm.automaton.Accepts sink w

/-- The first element of a sorted list that meets a condition is the least one. -/
theorem find?_of_sorted [LinearOrder α] {l : List α} (hl : l.Pairwise (· ≤ ·)) (P : α → Bool)
    (x : α) : l.find? P = some x ↔ x ∈ l ∧ P x ∧ ∀ y ∈ l, P y → x ≤ y := by
  induction l with
  | nil => simp
  | cons a l ih =>
    rw [List.pairwise_cons] at hl
    cases hP : P a with
    | true =>
      rw [List.find?_cons_of_pos hP]
      constructor
      · rintro ⟨⟩
        refine ⟨List.mem_cons_self, hP, fun y hy _ => ?_⟩
        rcases List.mem_cons.mp hy with rfl | hy
        · exact le_rfl
        · exact hl.1 y hy
      · rintro ⟨hx, -, hle⟩
        rcases List.mem_cons.mp hx with rfl | hx
        · rfl
        · exact congrArg some (le_antisymm (hl.1 x hx) (hle a List.mem_cons_self hP))
    | false =>
      rw [List.find?_cons_of_neg (by simp [hP]), ih hl.2, List.forall_mem_cons]
      constructor
      · rintro ⟨hx, hPx, hle⟩
        exact ⟨List.mem_cons_of_mem a hx, hPx, fun h => by simp [hP] at h, hle⟩
      · rintro ⟨hx, hPx, -, hle⟩
        rcases List.mem_cons.mp hx with rfl | hx
        · simp [hP] at hPx
        · exact ⟨hx, hPx, hle⟩

theorem Transition.le_iff {p q q' : State} {a : Symbol} :
    (⟨p, a, q⟩ : Transition) ≤ ⟨p, a, q'⟩ ↔ q ≤ q' := by
  change Transition.key _ ≤ Transition.key _ ↔ _
  simp [Transition.key, Prod.Lex.toLex_le_toLex]

/-- In a sorted list the transition to the least state comes first. -/
theorem makeTransition_of_sorted (hs : fsm.transitions.Pairwise (· ≤ ·)) :
    fsm.makeTransition p a = some q ↔ ⟨p, a, q⟩ ∈ fsm.transitions ∧
      ∀ q', ⟨p, a, q'⟩ ∈ fsm.transitions → q ≤ q' := by
  rw [makeTransition, Option.map_eq_some_iff]
  constructor
  · rintro ⟨⟨p', a', q⟩, ht, rfl⟩
    obtain ⟨hmem, hpa, hle⟩ := (find?_of_sorted hs _ _).mp ht
    obtain ⟨rfl, rfl⟩ := of_decide_eq_true hpa
    exact ⟨hmem, fun q' hq' => Transition.le_iff.mp (hle _ hq' (by simp))⟩
  · rintro ⟨hmem, hle⟩
    refine ⟨⟨p, a, q⟩, (find?_of_sorted hs _ _).mpr ⟨hmem, by simp, ?_⟩, rfl⟩
    rintro ⟨p', a', q'⟩ ht hpa
    obtain ⟨rfl, rfl⟩ := of_decide_eq_true hpa
    exact Transition.le_iff.mpr (hle q' ht)

/-! ## The completed automaton -/

theorem wellFSM_sorted (fsm : FSM) : fsm.wellFSM.transitions.Pairwise (· ≤ ·) :=
  sortOn_pairwise id _

section
variable (hf : fsm.WellFormed)
include hf

/-- The loops of `SINK` change nothing for the other states. -/
theorem wellFSM_makeTransition_of_ne
    (htotal : ∀ p ∈ fsm.states, ∀ a ∈ fsm.alphabet, ∃ q, fsm.makeTransition p a = some q)
    (hp : p ≠ sink) : fsm.wellFSM.makeTransition p a = fsm.makeTransition p a := by
  have hmem : ∀ q, ⟨p, a, q⟩ ∈ fsm.wellFSM.transitions ↔ ⟨p, a, q⟩ ∈ fsm.transitions := by
    intro q
    rw [mem_wellFSM_transitions hf]
    refine ⟨fun h => ?_, .inl⟩
    rcases h with h | ⟨hpm, ha, -, hnone⟩ | ⟨rfl, -, -⟩
    · exact h
    · obtain ⟨r, hr⟩ := htotal p hpm a ha
      exact absurd (hnone.symm.trans hr) (by simp)
    · exact absurd rfl hp
  refine Option.ext fun q => ?_
  rw [makeTransition_of_sorted fsm.wellFSM_sorted, makeTransition_eq_some hf.deterministic, hmem]
  refine ⟨fun h => h.1, fun h => ⟨h, fun q' hq' => le_of_eq ?_⟩⟩
  exact hf.deterministic _ h _ ((hmem q').mp hq') rfl rfl

/-- A loop of `SINK` wins against a transition to a greater state. -/
theorem wellFSM_makeTransition_min (h : fsm.makeTransition sink a = some q) :
    fsm.wellFSM.makeTransition sink a = some (min q sink) := by
  have hmem := mem_of_makeTransition h
  have ha : a ∈ fsm.alphabet := (hf.alphabet_mem a).mpr ⟨_, hmem, rfl⟩
  have htargets : ∀ q', ⟨sink, a, q'⟩ ∈ fsm.wellFSM.transitions ↔ q' = q ∨ q' = sink := by
    intro q'
    rw [mem_wellFSM_transitions hf]
    constructor
    · rintro (h' | ⟨-, -, -, hnone⟩ | ⟨-, -, h'⟩)
      · exact .inl (hf.deterministic _ h' _ hmem rfl rfl)
      · exact absurd (hnone.symm.trans h) (by simp)
      · exact .inr h'
    · rintro (rfl | rfl)
      · exact .inl hmem
      · exact .inr (.inr ⟨rfl, ha, rfl⟩)
  rw [makeTransition_of_sorted fsm.wellFSM_sorted, htargets]
  refine ⟨min_choice q sink, fun q' hq' => ?_⟩
  rcases (htargets q').mp hq' with rfl | rfl
  · exact min_le_left _ _
  · exact min_le_right _ _

variable (htotal : ∀ p ∈ fsm.states, ∀ a ∈ fsm.alphabet, ∃ q, fsm.makeTransition p a = some q)
include htotal

/-- If `SINK` is not reached, the completed automaton does the same. -/
theorem run_wellFSM (hreach : ∀ u, fsm.automaton.run p u ≠ some sink) (w : List Symbol) :
    fsm.wellFSM.automaton.run p w = fsm.automaton.run p w := by
  induction w generalizing p with
  | nil => rfl
  | cons a w ih =>
    have hp : p ≠ sink := fun h => hreach [] (congrArg some h)
    have hstep : fsm.wellFSM.automaton.step p a = fsm.automaton.step p a :=
      wellFSM_makeTransition_of_ne hf htotal hp
    rw [PartialAutomaton.run, PartialAutomaton.run, hstep]
    cases h : fsm.automaton.step p a with
    | none => rfl
    | some q =>
      refine ih fun u hu => hreach (a :: u) ?_
      rw [PartialAutomaton.run, h]
      exact hu

/-- Up to its first visit to `SINK` the completed automaton does the same. -/
theorem exists_run_sink (hu : fsm.automaton.run p u = some sink) :
    ∃ u', fsm.automaton.run p u' = some sink ∧ fsm.wellFSM.automaton.run p u' = some sink := by
  induction u generalizing p with
  | nil => exact ⟨[], hu, hu⟩
  | cons a u ih =>
    by_cases hp : p = sink
    · exact ⟨[], congrArg some hp, congrArg some hp⟩
    · have hstep : fsm.wellFSM.automaton.step p a = fsm.automaton.step p a :=
        wellFSM_makeTransition_of_ne hf htotal hp
      rw [PartialAutomaton.run] at hu
      obtain ⟨q, hq, hu⟩ := Option.bind_eq_some_iff.mp hu
      obtain ⟨u', h, h'⟩ := ih hu
      refine ⟨a :: u', ?_, ?_⟩
      · rw [PartialAutomaton.run, hq]
        exact h
      · rw [PartialAutomaton.run, hstep, hq]
        exact h'

/-- If the language is kept and `SINK` is reached, its loops do not matter. -/
theorem loops_of_accepts (haccepts : ∀ w, fsm.wellFSM.Accepts w ↔ fsm.Accepts w)
    (hu : fsm.automaton.run fsm.initialState u = some sink)
    (hq : fsm.makeTransition sink a = some q) (hlt : sink < q) (w : List Symbol) :
    fsm.automaton.Accepts q w ↔ fsm.automaton.Accepts sink w := by
  obtain ⟨u', h, h'⟩ := exists_run_sink hf htotal hu
  have hsink : ∀ w, fsm.wellFSM.automaton.Accepts sink w ↔ fsm.automaton.Accepts sink w := by
    intro w
    have hw := haccepts (u' ++ w)
    simp only [Accepts, PartialAutomaton.Accepts, PartialAutomaton.run_append] at hw
    change (∃ q, (fsm.wellFSM.automaton.run fsm.initialState u').bind _ = _ ∧ _) ↔ _ at hw
    rw [h', h] at hw
    exact hw
  have hloop : fsm.wellFSM.automaton.step sink a = some sink := by
    have hmin := wellFSM_makeTransition_min hf hq
    rwa [min_eq_right hlt.le] at hmin
  have hword := hsink (a :: w)
  rw [PartialAutomaton.accepts_cons_of_step hloop, PartialAutomaton.accepts_cons_of_step hq,
    hsink w] at hword
  exact hword.symm

variable (hmem : sink ∈ fsm.states)
include hmem

theorem wellFSM_makeTransition_sink_eq (a : Symbol) : fsm.wellFSM.makeTransition sink a =
    (fsm.makeTransition sink a).map (min · sink) := by
  cases h : fsm.makeTransition sink a with
  | some q => exact wellFSM_makeTransition_min hf h
  | none =>
    have ha : a ∉ fsm.alphabet := fun ha => by
      obtain ⟨q, hq⟩ := htotal sink hmem a ha
      exact absurd (h.symm.trans hq) (by simp)
    exact makeTransition_of_not_mem (wellFSM_symbol_mem hf) ha

/-- If the loops of `SINK` do not matter, no state accepts other words. -/
theorem accepts_wellFSM_of_loops (hloops : ∀ a q, fsm.makeTransition sink a = some q → sink < q →
      ∀ w, fsm.automaton.Accepts q w ↔ fsm.automaton.Accepts sink w) (p : State)
    (w : List Symbol) : fsm.wellFSM.automaton.Accepts p w ↔ fsm.automaton.Accepts p w := by
  induction w generalizing p with
  | nil =>
    rw [PartialAutomaton.accepts_nil, PartialAutomaton.accepts_nil]
    rfl
  | cons a w ih =>
    rw [PartialAutomaton.accepts_cons, PartialAutomaton.accepts_cons]
    simp only [ih]
    by_cases hp : p = sink
    · subst hp
      simp only [automaton, wellFSM_makeTransition_sink_eq hf htotal hmem]
      cases h : fsm.makeTransition sink a with
      | none => simp
      | some q =>
        rw [Option.map_some]
        simp only [Option.some.injEq, exists_eq_left']
        rcases le_or_gt q sink with hle | hlt
        · rw [min_eq_left hle]
        · rw [min_eq_right hlt.le]
          exact (hloops a q h hlt w).symm
    · simp only [automaton, wellFSM_makeTransition_of_ne hf htotal hp]

end

/-! ## What completion does to a state called `SINK` -/

theorem wellTransitions_eq_nil_iff (hf : fsm.WellFormed) : fsm.wellTransitions = [] ↔
    ∀ p ∈ fsm.states, ∀ a ∈ fsm.alphabet, ∃ q, fsm.makeTransition p a = some q := by
  constructor
  · intro hnil p hp a ha
    refine Option.ne_none_iff_exists'.mp fun hnone => ?_
    have ht : ⟨p, a, sink⟩ ∈ fsm.wellTransitions :=
      (mem_wellTransitions hf).mpr ⟨hp, ha, rfl, hnone⟩
    rw [hnil] at ht
    cases ht
  · intro htotal
    refine List.eq_nil_iff_forall_not_mem.mpr fun t ht => ?_
    obtain ⟨hp, ha, -, hnone⟩ := (mem_wellTransitions hf).mp ht
    obtain ⟨q, hq⟩ := htotal _ hp _ ha
    exact absurd (hnone.symm.trans hq) (by simp)

theorem WellDefined.harmlessSink (hf : fsm.WellFormed) (hmem : sink ∈ fsm.states)
    (h : fsm.WellDefined) : fsm.HarmlessSink := by
  have hnil : fsm.wellTransitions = [] := by
    -- another state of the same name would be added
    have hnodup := h.states_nodup
    simp only [wellFSM] at hnodup
    split_ifs at hnodup with hempty
    · exact List.isEmpty_iff.mp hempty
    · exact absurd rfl ((List.nodup_append.mp hnodup).2.2 sink hmem sink (List.mem_singleton_self _))
  have htotal := (wellTransitions_eq_nil_iff hf).mp hnil
  refine ⟨htotal, fun hreach a q hq hlt => ?_⟩
  obtain ⟨u, hu⟩ := hreach
  exact loops_of_accepts hf htotal h.accepts hu hq hlt

theorem HarmlessSink.wellDefined (hf : fsm.WellFormed) (hmem : sink ∈ fsm.states)
    (h : fsm.HarmlessSink) : fsm.WellDefined := by
  have hstates : fsm.wellFSM.states = fsm.states := by
    rw [wellFSM, (wellTransitions_eq_nil_iff hf).mpr h.total]
    rfl
  refine ⟨hstates ▸ hf.states_nodup, fun p hp a ha => ?_, fun w => ?_⟩
  · rw [hstates] at hp
    obtain ⟨q, hq⟩ := h.total p hp a ha
    by_cases hps : p = sink
    · subst hps
      exact ⟨_, wellFSM_makeTransition_min hf hq⟩
    · exact ⟨q, (wellFSM_makeTransition_of_ne hf h.total hps).trans hq⟩
  · by_cases hreach : ∃ u, fsm.automaton.run fsm.initialState u = some sink
    · exact accepts_wellFSM_of_loops hf h.total hmem (h.loops hreach) _ w
    · have hrun := run_wellFSM hf h.total (fun u hu => hreach ⟨u, hu⟩) w
      exact exists_congr fun q => and_congr_left fun _ => by
        rw [← hrun]
        rfl

/-- Completion makes an automaton well defined and keeps its language exactly when no state is
called `SINK` or such a state is harmless. -/
theorem wellDefined_iff (hf : fsm.WellFormed) :
    fsm.WellDefined ↔ sink ∉ fsm.states ∨ fsm.HarmlessSink := by
  by_cases hmem : sink ∈ fsm.states
  · rw [or_iff_right (not_not.mpr hmem)]
    exact ⟨WellDefined.harmlessSink hf hmem, HarmlessSink.wellDefined hf hmem⟩
  · refine iff_of_true ?_ (.inl hmem)
    have hc := complete_wellFSM hf hmem
    refine ⟨hc.states_nodup, fun p hp a ha => ?_, wellFSM_accepts hf hmem hf.initial_mem⟩
    obtain ⟨q, -, hq⟩ := hc.total p hp a ha
    exact ⟨q, hq⟩

/-- A machine that leaves a state called `SINK` for a state with a greater name. -/
def namedSink : FSM where
  alphabet := ['a']
  states := [sink, ['T']]
  initialState := sink
  finalStates := [['T']]
  transitions := [⟨sink, 'a', ['T']⟩, ⟨['T'], 'a', ['T']⟩]

theorem namedSink_wellFormed : namedSink.WellFormed where
  states_nodup := by decide
  initial_mem := by decide
  final_mem := by decide
  from_mem := by decide
  to_mem := by decide
  deterministic := by unfold Deterministic; decide
  alphabet_nodup := by decide
  alphabet_mem a := by simp [namedSink, eq_comm]

theorem wellDefined_twoFinal : twoFinal.WellDefined :=
  (wellDefined_iff twoFinal_wellFormed).mpr (.inl (by decide))

/-- The loop of `SINK` hides the transition to the final state. -/
theorem namedSink_not_wellDefined : ¬ ∀ fsm : FSM, fsm.WellFormed → fsm.WellDefined := by
  intro h
  have hharmless := (h namedSink namedSink_wellFormed).harmlessSink namedSink_wellFormed (by decide)
  have hnil := hharmless.loops ⟨[], rfl⟩ 'a' ['T'] (by decide) (by decide) []
  rw [PartialAutomaton.accepts_nil, PartialAutomaton.accepts_nil] at hnil
  exact absurd (hnil.mp (by decide : ['T'] ∈ namedSink.finalStates))
    (by decide : sink ∉ namedSink.finalStates)

end FLP.FSM
