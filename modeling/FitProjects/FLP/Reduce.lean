import FitProjects.FLP.Classes
import FitProjects.FLP.Completion
import FitProjects.FLP.Equivalence

/-! # The reduced automaton

`reduceFSM'` renames each state of the completed automaton to the name of its class, and `reduceFSM`
deletes the class of the states from which nothing is accepted, if there is one. Neither changes
what is accepted. -/

namespace FLP.FSM

open DataList

/-- `table` names the states of `wd`, with one name for those that accept the same words. -/
structure Names (wd : FSM) (table : Map State State) : Prop where
  exists_name : ∀ p ∈ wd.states, ∃ r, ekvState table p = some r
  mem_states {p r : State} : ekvState table p = some r → p ∈ wd.states
  eq_iff {p q r r' : State} : ekvState table p = some r → ekvState table q = some r' →
    (r = r' ↔ wd.automaton.Equivalent (· ∈ wd.alphabet) p q)
  mem_elems {r : State} : r ∈ table.elems ↔ ∃ p, ekvState table p = some r

variable {fsm fsm' wd : FSM} {table : Map State State} {p q r r' : State} {a : Symbol} {t : Transition}

/-- The classes that `reduceFSM'` computes name the states. -/
theorem exists_names (hc : wd.Complete) :
    ∃ gs, minClasses (wd.lastEqClass wd.zeroEq) = some gs ∧ Names wd (newStates gs) := by
  have hmem (p q : State) := mem_lastEqClass_zeroEq (p := p) (q := q) hc.total
  have he : IsEquivalence (wd.lastEqClass wd.zeroEq) := by
    refine ⟨fun {x y} h => ?_, fun {x y} h => ?_, fun {x y z} h h' => ?_⟩
    · obtain ⟨hx, -, -⟩ := (hmem x y).mp h
      exact (hmem x x).mpr ⟨hx, hx, fun _ _ => Iff.rfl⟩
    · obtain ⟨hx, hy, hxy⟩ := (hmem x y).mp h
      exact (hmem y x).mpr ⟨hy, hx, fun w hw => (hxy w hw).symm⟩
    · obtain ⟨hx, -, hxy⟩ := (hmem x y).mp h
      obtain ⟨-, hz, hyz⟩ := (hmem y z).mp h'
      exact (hmem x z).mpr ⟨hx, hz, fun w hw => (hxy w hw).trans (hyz w hw)⟩
  obtain ⟨gs, hgs, hpart⟩ := exists_minClasses he
  refine ⟨gs, hgs, fun p hp => ?_, fun {p r} hp => ?_, fun {p q r r'} hp hq => ?_,
    mem_elems_newStates hpart⟩
  · exact exists_ekvState hpart ((hmem p p).mpr ⟨hp, hp, fun _ _ => Iff.rfl⟩)
  · exact ((hmem p p).mp (mem_of_ekvState hpart hp)).1
  · have hps := ((hmem p p).mp (mem_of_ekvState hpart hp)).1
    have hqs := ((hmem q q).mp (mem_of_ekvState hpart hq)).1
    rw [ekvState_eq_iff he hpart hp hq, hmem]
    exact ⟨fun h => h.2.2, fun h => ⟨hps, hqs, h⟩⟩

theorem mem_rename_transitions : t ∈ (wd.rename table).transitions ↔
    ∃ p ∈ wd.states, ∃ q ∈ wd.states, t.symbol ∈ wd.alphabet ∧
      wd.makeTransition p t.symbol = some q ∧ ekvState table p = some t.fromState ∧
      ekvState table q = some t.toState := by
  simp only [rename, mem_sort, List.mem_eraseDups, List.mem_flatMap, List.mem_filterMap]
  refine exists_congr fun p => and_congr_right fun _ => exists_congr fun q =>
    and_congr_right fun _ => ?_
  obtain ⟨p', b, q'⟩ := t
  constructor
  · rintro ⟨a, ha, h⟩
    split at h
    · split_ifs at h with hm
      cases h
      exact ⟨ha, hm, by assumption, by assumption⟩
    · cases h
  · rintro ⟨ha, hm, hp, hq⟩
    exact ⟨b, ha, by simp only [hp, hq, hm, if_true]⟩

theorem symbol_mem_of_rename (ht : t ∈ (wd.rename table).transitions) : t.symbol ∈ wd.alphabet := by
  rw [mem_rename_transitions] at ht
  obtain ⟨p, -, q, -, ha, -⟩ := ht
  exact ha

theorem ekvState_fromState (ht : t ∈ (wd.rename table).transitions) :
    ∃ p, ekvState table p = some t.fromState := by
  rw [mem_rename_transitions] at ht
  obtain ⟨p, -, q, -, -, -, hp, -⟩ := ht
  exact ⟨p, hp⟩

theorem ekvState_toState (ht : t ∈ (wd.rename table).transitions) :
    ∃ q, ekvState table q = some t.toState := by
  rw [mem_rename_transitions] at ht
  obtain ⟨p, -, q, -, -, -, -, hq⟩ := ht
  exact ⟨q, hq⟩

section
variable (hn : Names wd table)
include hn

theorem rename_deterministic : (wd.rename table).Deterministic := by
  rintro ⟨p, a, q⟩ ht ⟨p', a', q'⟩ ht' rfl rfl
  rw [mem_rename_transitions] at ht ht'
  obtain ⟨x, hx, y, hy, ha, hxy, hpx, hqy⟩ := ht
  obtain ⟨x', hx', y', hy', -, hxy', hpx', hqy'⟩ := ht'
  -- States with one name are equivalent, hence so are their successors.
  have he := (hn.eq_iff hpx hpx').mp rfl
  exact (hn.eq_iff hqy hqy').mpr (he.step ha hxy hxy')

theorem rename_final (hp : ekvState table p = some r) :
    r ∈ (wd.rename table).finalStates ↔ p ∈ wd.finalStates := by
  simp only [rename, List.mem_eraseDups, List.mem_filterMap]
  constructor
  · rintro ⟨q, hq, hqr⟩
    have he := (hn.eq_iff hp hqr).mp rfl
    simpa [automaton, hq] using he [] (by simp)
  · exact fun h => ⟨p, h, hp⟩

theorem mem_rename_states : r ∈ (wd.rename table).states ↔ ∃ p, ekvState table p = some r := by
  rw [← hn.mem_elems]
  simp [rename]

variable (hc : wd.Complete)
include hc

theorem rename_makeTransition (hp : ekvState table p = some r) (hq : ekvState table q = some r')
    (h : wd.makeTransition p a = some q) : (wd.rename table).makeTransition r a = some r' := by
  have hps := hn.mem_states hp
  obtain ⟨ha, hqs⟩ := hc.mem_of_makeTransition hps h
  rw [makeTransition_eq_some (rename_deterministic hn), mem_rename_transitions]
  exact ⟨p, hps, q, hqs, ha, h, hp, hq⟩

theorem rename_makeTransition_none (hp : ekvState table p = some r)
    (h : wd.makeTransition p a = none) : (wd.rename table).makeTransition r a = none := by
  rw [makeTransition_eq_none]
  intro r' hr
  obtain ⟨q, -, hq⟩ := hc.total p (hn.mem_states hp) a (symbol_mem_of_rename hr)
  rw [h] at hq
  cases hq

/-- Renaming does not change what a state accepts. -/
theorem rename_matched : wd.automaton.Matched (wd.rename table).automaton (fun _ => True)
    fun p r => ekvState table p = some r := by
  refine ⟨fun hp => (rename_final hn hp).symm, fun {p r a} hp _ => ?_⟩
  simp only [automaton]
  cases h : wd.makeTransition p a with
  | none =>
    rw [rename_makeTransition_none hn hc hp h]
    exact .none
  | some q =>
    obtain ⟨r', hq⟩ := hn.exists_name q (hc.mem_of_makeTransition (hn.mem_states hp) h).2
    rw [rename_makeTransition hn hc hp hq h]
    exact .some hq

theorem rename_initialState : ekvState table wd.initialState =
    some (wd.rename table).initialState := by
  obtain ⟨r, hr⟩ := hn.exists_name _ hc.initial_mem
  simp [rename, hr]

theorem dead_iff (hp : ekvState table p = some r) :
    (wd.rename table).automaton.Dead r ↔ wd.automaton.Dead p :=
  ((rename_matched hn hc).dead (fun _ => trivial) hp).symm

/-- `isSinkState` recognises the states from which nothing is accepted. -/
theorem isSinkState_iff (hp : ekvState table p = some r) :
    (wd.rename table).isSinkState r = true ↔ (wd.rename table).automaton.Dead r := by
  simp only [isSinkState, Bool.and_eq_true, decide_eq_true_eq, List.all_eq_true, List.mem_filter,
    and_imp]
  constructor
  · rintro ⟨hfinal, hloop⟩
    refine .of_closed (D := (· = r)) ?_ ?_ rfl
    · rintro _ rfl
      exact hfinal
    · rintro _ a q' rfl h
      exact hloop _ (mem_of_makeTransition h) rfl
  · intro hd
    refine ⟨hd.not_accept, fun t ht hr => ?_⟩
    rw [mem_rename_transitions] at ht
    obtain ⟨x, hx, y, hy, ha, hxy, hpx, hqy⟩ := ht
    rw [hr] at hpx ⊢
    have hdx := (dead_iff hn hc hpx).mp hd
    exact (hn.eq_iff hqy hpx).mpr ((hdx.step hxy).equivalent hdx)

end

/-! ## Deleting the sink -/

theorem Deterministic.mono (hd : fsm.Deterministic)
    (h : ∀ t ∈ fsm'.transitions, t ∈ fsm.transitions) : fsm'.Deterministic :=
  fun t ht t' ht' => hd t (h t ht) t' (h t' ht')

theorem mem_deleteState_transitions : t ∈ (fsm.deleteState q).transitions ↔
    t ∈ fsm.transitions ∧ t.toState ≠ q ∧ t.fromState ≠ q := by
  simp [deleteState]

/-- Deleting a state from which nothing is accepted does not change what the others accept. -/
theorem deleteState_matched (hdet : fsm.Deterministic) (hq : fsm.automaton.Dead q) :
    fsm.automaton.Matched (fsm.deleteState q).automaton (fun _ => True) (· = ·) := by
  have hdet' : (fsm.deleteState q).Deterministic :=
    hdet.mono fun t ht => (mem_deleteState_transitions.mp ht).1
  refine ⟨fun h => by rw [h]; rfl, ?_⟩
  rintro p _ a rfl -
  simp only [automaton]
  cases h : fsm.makeTransition p a with
  | none =>
    have hnone : (fsm.deleteState q).makeTransition p a = none := by
      rw [makeTransition_eq_none] at h ⊢
      exact fun r hr => h r (mem_deleteState_transitions.mp hr).1
    rw [hnone]
    exact .none
  | some r =>
    by_cases hdel : r ≠ q ∧ p ≠ q
    · have hsome : (fsm.deleteState q).makeTransition p a = some r := by
        rw [makeTransition_eq_some hdet', mem_deleteState_transitions]
        exact ⟨mem_of_makeTransition h, hdel⟩
      rw [hsome]
      exact .some rfl
    · have hnone : (fsm.deleteState q).makeTransition p a = none := by
        rw [makeTransition_eq_none]
        intro r' hr'
        obtain ⟨hmem, hne⟩ := mem_deleteState_transitions.mp hr'
        rw [← makeTransition_eq_some hdet, h] at hmem
        cases hmem
        exact hdel hne
      rw [hnone]
      refine .left ?_
      by_cases hr : r = q
      · exact hr ▸ hq
      · have hp : p = q := by_contra fun hp => hdel ⟨hr, hp⟩
        exact (hp ▸ hq).step h

/-! ## The result -/

/-- `res` is a machine on the names of the states of `wd`, where no transition leads to the name of a
state from which nothing is accepted. -/
structure Reduced (wd : FSM) (table : Map State State) (res : FSM) : Prop where
  names : Names wd table
  deterministic : res.Deterministic
  symbol_mem : ∀ t ∈ res.transitions, t.symbol ∈ wd.alphabet
  alphabet_eq : res.alphabet = wd.alphabet
  initial_name : ekvState table wd.initialState = some res.initialState
  live : ∀ t ∈ res.transitions, ∃ q, ekvState table q = some t.toState ∧ ¬wd.automaton.Dead q
  accepts {p r : State} (hp : ekvState table p = some r) (w : List Symbol) :
    res.automaton.Accepts r w ↔ wd.automaton.Accepts p w

/-- `reduceFSM` ends, with the names of the completed automaton. -/
theorem exists_reduced (hc : fsm.wellFSM.Complete) :
    ∃ res table, fsm.reduceFSM = some res ∧ Reduced fsm.wellFSM table res := by
  obtain ⟨gs, hgs, hn⟩ := exists_names hc
  let table := newStates gs
  let red := fsm.wellFSM.rename table
  have hred : fsm.reduceFSM' = some red := by simp only [reduceFSM', hgs, Option.map_some]; rfl
  have hdet : red.Deterministic := rename_deterministic hn
  have hsym : ∀ t ∈ red.transitions, t.symbol ∈ fsm.wellFSM.alphabet :=
    fun _ => symbol_mem_of_rename
  have hacc {p r : State} (hp : ekvState table p = some r) (w : List Symbol) :
      red.automaton.Accepts r w ↔ fsm.wellFSM.automaton.Accepts p w :=
    ((rename_matched hn hc).accepts hp fun _ _ => trivial).symm
  have hsink {p r : State} (hp : ekvState table p = some r) :
      red.isSinkState r = true ↔ fsm.wellFSM.automaton.Dead p :=
    (isSinkState_iff hn hc hp).trans (dead_iff hn hc hp)
  cases hfind : red.states.find? red.isSinkState with
  | none =>
    refine ⟨red, table, by simp only [reduceFSM, hred, Option.map_some, hfind], hn, hdet, hsym, rfl,
      rename_initialState hn hc, fun t ht => ?_, hacc⟩
    obtain ⟨q, hq⟩ := ekvState_toState ht
    refine ⟨q, hq, fun hd => ?_⟩
    exact List.find?_eq_none.mp hfind _ ((mem_rename_states hn).mpr ⟨q, hq⟩) ((hsink hq).mpr hd)
  | some s =>
    obtain ⟨p, hp⟩ := (mem_rename_states hn).mp (List.mem_of_find?_eq_some hfind)
    have hsd : fsm.wellFSM.automaton.Dead p := (hsink hp).mp (List.find?_some hfind)
    have hmem {t : Transition} (ht : t ∈ (red.deleteState s).transitions) :
        t ∈ red.transitions := (mem_deleteState_transitions.mp ht).1
    refine ⟨red.deleteState s, table, by simp only [reduceFSM, hred, Option.map_some, hfind], hn,
      hdet.mono fun _ => hmem, fun t ht => hsym t (hmem ht), rfl, rename_initialState hn hc,
      fun t ht => ?_, fun hq w => ?_⟩
    · obtain ⟨q, hq⟩ := ekvState_toState (hmem ht)
      -- Two states from which nothing is accepted are equivalent: they have one name.
      refine ⟨q, hq, fun hd => (mem_deleteState_transitions.mp ht).2.1 ?_⟩
      exact (hn.eq_iff hq hp).mpr (hd.equivalent hsd)
    · rw [← hacc hq]
      exact ((deleteState_matched hdet ((dead_iff hn hc hp).mpr hsd)).accepts rfl
        fun _ _ => trivial).symm

end FLP.FSM
