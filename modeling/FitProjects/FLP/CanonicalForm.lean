import FitProjects.FLP.Language
import FitProjects.Lib.MinimalAutomaton

/-! # The canonical form

What `-f` prints depends on the language alone, up to the names of the states: machines that accept
the same words are reduced to automata that a renaming of the states turns into one another. No
machine for the language has fewer states. -/

namespace FLP.FSM

open PartialAutomaton

variable {fsm res : FSM}

/-- The states of the printed automaton. -/
theorem nodup_removeNonReachableStates (fsm : FSM) : fsm.removeNonReachableStates.states.Nodup := by
  rw [removeNonReachableStates]
  exact Finset.sort_nodup _ _

theorem mem_states_of_makeTransition {p q : State} {a : Symbol}
    (h : fsm.removeNonReachableStates.makeTransition p a = some q) :
    q ∈ fsm.removeNonReachableStates.states := by
  rw [mem_removeNonReachableStates_states]
  exact (mem_removeNonReachableStates_transitions.mp (mem_of_makeTransition h)).2.2

/-- The printed automaton is minimal when it accepts a word. -/
theorem TrimmedMinimal.minimal (h : fsm.removeNonReachableStates.TrimmedMinimal)
    (hword : ∃ w, fsm.removeNonReachableStates.Accepts w) :
    fsm.removeNonReachableStates.automaton.Minimal fsm.removeNonReachableStates.initialState
      {q | q ∈ fsm.removeNonReachableStates.states} where
  start_mem := mem_removeNonReachableStates_states.mpr initialState_mem_reachable
  step_mem _ h := mem_states_of_makeTransition h
  reached := h.reachable
  live q hq := by
    by_cases hne : q = fsm.removeNonReachableStates.initialState
    · exact not_forall_not.mpr (hne ▸ hword)
    · exact not_forall_not.mpr (h.live q hq hne)
  distinguished p hp q hq hsame := by
    by_contra hne
    obtain ⟨w, hw⟩ := h.distinguished p hp q hq hne
    exact (xor_iff_not_iff _ _).mp hw (hsame w)

/-- What `-f` prints for a machine is minimal and accepts the same words. -/
theorem exists_printed (hf : fsm.WellFormed) (hs : sink ∉ fsm.states) :
    ∃ res, fsm.reduceFSM = some res ∧ res.removeNonReachableStates.TrimmedMinimal ∧
      ∀ w, res.removeNonReachableStates.Accepts w ↔ fsm.Accepts w := by
  obtain ⟨res, table, hres, hr⟩ := exists_reduced (complete_wellFSM hf hs)
  refine ⟨res, hres, hr.trimmedMinimal, fun w => ?_⟩
  exact (hr.removeNonReachableStates_accepts initialState_mem_reachable w).trans
    ((hr.accepts hr.initial_name w).trans (wellFSM_accepts hf hs hf.initial_mem w))

/-- `f` turns one machine into the other. -/
structure IsRenaming (f : State → State) (a b : FSM) : Prop where
  states : Set.BijOn f {q | q ∈ a.states} {q | q ∈ b.states}
  initial : f a.initialState = b.initialState
  final : ∀ p ∈ a.states, p ∈ a.finalStates ↔ f p ∈ b.finalStates
  transition : ∀ p ∈ a.states, ∀ s, b.makeTransition (f p) s = (a.makeTransition p s).map f

/-! ## Two machines for one language -/

/-- `twoFinal` with its final states merged. -/
def oneFinal : FSM where
  alphabet := ['a', 'b']
  states := [['x'], ['y']]
  initialState := ['x']
  finalStates := [['y']]
  transitions := [⟨['x'], 'a', ['y']⟩, ⟨['x'], 'b', ['y']⟩, ⟨['y'], 'a', ['y']⟩]

theorem oneFinal_wellFormed : oneFinal.WellFormed where
  states_nodup := by decide
  initial_mem := by decide
  final_mem := by decide
  from_mem := by decide
  to_mem := by decide
  deterministic := by unfold Deterministic; decide
  alphabet_nodup := by decide
  alphabet_mem a := by simp [oneFinal, or_comm]; tauto

theorem twoFinal_accepts_iff (w : List Symbol) : twoFinal.Accepts w ↔ oneFinal.Accepts w := by
  have hmatched : Matched twoFinal.automaton oneFinal.automaton (fun _ => True) fun p q =>
      (p = ['1'] ∧ q = ['x']) ∨ ((p = ['2'] ∨ p = ['3']) ∧ q = ['y']) := by
    constructor
    · rintro p q (⟨rfl, rfl⟩ | ⟨rfl | rfl, rfl⟩)
      · simp [automaton, twoFinal, oneFinal]
      · simp [automaton, twoFinal, oneFinal]
      · simp [automaton, twoFinal, oneFinal]
    · intro p q a h _
      -- a symbol is `a`, `b` or none of the alphabet
      have hstep (fsm : FSM) (p : State) (hnot : ∀ t ∈ fsm.transitions, t.symbol ≠ a) :
          fsm.automaton.step p a = none :=
        makeTransition_eq_none.mpr fun q hq => hnot _ hq rfl
      rcases eq_or_ne a 'a' with rfl | ha
      · rcases h with ⟨rfl, rfl⟩ | ⟨rfl | rfl, rfl⟩
        · exact .some (.inr ⟨.inl rfl, rfl⟩)
        · exact .some (.inr ⟨.inr rfl, rfl⟩)
        · exact .some (.inr ⟨.inl rfl, rfl⟩)
      · rcases eq_or_ne a 'b' with rfl | hb
        · rcases h with ⟨rfl, rfl⟩ | ⟨rfl | rfl, rfl⟩
          · exact .some (.inr ⟨.inr rfl, rfl⟩)
          · exact .none
          · exact .none
        · rw [hstep twoFinal p (by simp [twoFinal, ha.symm, hb.symm]),
            hstep oneFinal q (by simp [oneFinal, ha.symm, hb.symm])]
          exact .none
  exact hmatched.accepts (.inl ⟨rfl, rfl⟩) fun _ _ => trivial

theorem twoFinal_accepts_a : twoFinal.Accepts ['a'] := ⟨['2'], rfl, by simp [automaton, twoFinal]⟩

/-! ## Canonicity -/

/-- Machines for one language are reduced to one automaton, up to the names of its states. -/
theorem reduceFSM_canonical {fsm' : FSM} (hf : fsm.WellFormed) (hs : sink ∉ fsm.states)
    (hf' : fsm'.WellFormed) (hs' : sink ∉ fsm'.states) (hlang : ∀ w, fsm.Accepts w ↔ fsm'.Accepts w)
    (hword : ∃ w, fsm.Accepts w) :
    ∃ res res', fsm.reduceFSM = some res ∧ fsm'.reduceFSM = some res' ∧
      ∃ f, IsRenaming f res.removeNonReachableStates res'.removeNonReachableStates := by
  obtain ⟨res, hres, htrim, haccepts⟩ := exists_printed hf hs
  obtain ⟨res', hres', htrim', haccepts'⟩ := exists_printed hf' hs'
  obtain ⟨w, hw⟩ := hword
  have hmin := htrim.minimal ⟨w, (haccepts w).mpr hw⟩
  have hmin' := htrim'.minimal ⟨w, (haccepts' w).mpr ((hlang w).mp hw)⟩
  obtain ⟨f, hbij, hinitial, hrest⟩ := hmin.exists_renaming hmin' fun w =>
    (haccepts w).trans ((hlang w).trans (haccepts' w).symm)
  exact ⟨res, res', hres, hres', f, hbij, hinitial, fun p hp => (hrest p hp).1,
    fun p hp => (hrest p hp).2⟩

theorem reduceFSM_canonical_twoFinal : ∃ res res', twoFinal.reduceFSM = some res ∧
    oneFinal.reduceFSM = some res' ∧
      ∃ f, IsRenaming f res.removeNonReachableStates res'.removeNonReachableStates :=
  reduceFSM_canonical twoFinal_wellFormed (by decide) oneFinal_wellFormed (by decide)
    twoFinal_accepts_iff ⟨_, twoFinal_accepts_a⟩

/-- No machine for the language has fewer states than the one that is printed. -/
theorem reduceFSM_fewest {other : FSM} (hf : fsm.WellFormed) (hs : sink ∉ fsm.states)
    (hinitial : other.initialState ∈ other.states)
    (hto : ∀ t ∈ other.transitions, t.toState ∈ other.states)
    (hlang : ∀ w, fsm.Accepts w ↔ other.Accepts w) :
    ∃ res, fsm.reduceFSM = some res ∧
      res.removeNonReachableStates.states.length ≤ other.states.length := by
  obtain ⟨res, hres, htrim, haccepts⟩ := exists_printed hf hs
  refine ⟨res, hres, ?_⟩
  by_cases hword : ∃ w, fsm.Accepts w
  · obtain ⟨w, hw⟩ := hword
    have hmin := htrim.minimal ⟨w, (haccepts w).mpr hw⟩
    rw [← List.coe_toFinset] at hmin
    have hcard := hmin.card_le (N := other.automaton) (E := other.states.toFinset)
      (List.mem_toFinset.mpr hinitial)
      (fun _ h => List.mem_toFinset.mpr (hto _ (mem_of_makeTransition h)))
      fun w => (haccepts w).trans (hlang w)
    rw [List.toFinset_card_of_nodup (nodup_removeNonReachableStates res)] at hcard
    exact hcard.trans (List.toFinset_card_le _)
  · -- without an accepted word only the initial state remains
    have hsub : res.removeNonReachableStates.states ⊆ [res.removeNonReachableStates.initialState] := by
      intro q hq
      by_contra hne
      obtain ⟨l, hl⟩ := htrim.live q hq (fun heq => hne (List.mem_singleton.mpr heq))
      obtain ⟨w, hw⟩ := htrim.reachable q hq
      exact hword ⟨w ++ l, (haccepts _).mp ((accepts_append hw).mpr hl)⟩
    have hle := (nodup_removeNonReachableStates res).length_le_of_subset hsub
    exact hle.trans (List.length_pos_of_mem hinitial)

theorem reduceFSM_fewest_twoFinal : ∃ res, twoFinal.reduceFSM = some res ∧
    res.removeNonReachableStates.states.length ≤ oneFinal.states.length :=
  reduceFSM_fewest twoFinal_wellFormed (by decide) (by decide) (by decide) twoFinal_accepts_iff

end FLP.FSM
