import FitProjects.Lib.PartialAutomaton
import Mathlib.Data.Finset.Card
import Mathlib.Data.Set.Function

/-! # Minimal automata

A partial automaton is minimal on a set of states if they are all reached and live, and if words tell
them apart. Two minimal automata that accept the same words differ in the names of their states
only, and no automaton for these words has fewer states. -/

namespace PartialAutomaton

variable {σ : Type u} {τ : Type w} {α : Type v} {M : PartialAutomaton σ α}
  {N : PartialAutomaton τ α} {D : Set σ} {E : Set τ}

/-- The same words are accepted from `p` and from `q`. -/
def Same (M : PartialAutomaton σ α) (N : PartialAutomaton τ α) (p : σ) (q : τ) : Prop :=
  ∀ l, M.Accepts p l ↔ N.Accepts q l

/-- All states are reached and live, and no two of them accept the same words. -/
structure Minimal (M : PartialAutomaton σ α) (start : σ) (D : Set σ) : Prop where
  start_mem : start ∈ D
  step_mem : ∀ {p a q}, p ∈ D → M.step p a = some q → q ∈ D
  reached : ∀ q ∈ D, ∃ l, M.run start l = some q
  live : ∀ q ∈ D, ¬M.Dead q
  distinguished : ∀ p ∈ D, ∀ q ∈ D, Same M M p q → p = q

theorem Same.symm (h : Same M N p q) : Same N M q p := fun l => (h l).symm

theorem accepts_append (h : M.run p l = some p') : M.Accepts p (l ++ l') ↔ M.Accepts p' l' := by
  simp only [Accepts, run_append, h, Option.bind_some]

theorem run_singleton : M.run p [a] = M.step p a := by
  rw [run]
  exact Option.bind_fun_some (M.step p a)

/-- A live state that a word leads to has a state with the same words on the other side. -/
theorem Same.exists_run (h : Same M N p q) (hrun : M.run p l = some p') (hlive : ¬M.Dead p') :
    ∃ q', N.run q l = some q' ∧ Same M N p' q' := by
  obtain ⟨l', hl'⟩ := not_forall_not.mp hlive
  -- an accepted word shows that the run goes on to the end on the other side
  obtain ⟨r, hr, -⟩ := (h (l ++ l')).mp ((accepts_append hrun).mpr hl')
  rw [run_append] at hr
  obtain ⟨q', hq', -⟩ := Option.bind_eq_some_iff.mp hr
  exact ⟨q', hq', fun l' => by rw [← accepts_append hrun, h, accepts_append hq']⟩

theorem Same.exists_step (h : Same M N p q) (hstep : M.step p a = some p') (hlive : ¬M.Dead p') :
    ∃ q', N.step q a = some q' ∧ Same M N p' q' := by
  obtain ⟨q', hq', hsame⟩ := h.exists_run (run_singleton.trans hstep) hlive
  exact ⟨q', run_singleton.symm.trans hq', hsame⟩

theorem mem_of_run (hstep : ∀ {p a q}, p ∈ D → M.step p a = some q → q ∈ D) (hp : p ∈ D)
    (hrun : M.run p l = some q) : q ∈ D := by
  induction l generalizing p with
  | nil =>
    cases hrun
    exact hp
  | cons a l ih =>
    obtain ⟨r, hr, hrun⟩ := Option.bind_eq_some_iff.mp hrun
    exact ih (hstep hp hr) hrun

/-- Every state of a minimal automaton has one with the same words in any other automaton. -/
theorem Minimal.exists_same (hM : M.Minimal p₀ D) (hq₀ : q₀ ∈ E)
    (hstep : ∀ {p a q}, p ∈ E → N.step p a = some q → q ∈ E) (h : Same M N p₀ q₀) (hp : p ∈ D) :
    ∃ q ∈ E, Same M N p q := by
  obtain ⟨l, hl⟩ := hM.reached p hp
  obtain ⟨q, hq, hsame⟩ := h.exists_run hl (hM.live p hp)
  exact ⟨q, mem_of_run hstep hq₀ hq, hsame⟩

/-- The names of the states are all that two minimal automata differ in. -/
theorem Minimal.exists_renaming (hM : M.Minimal p₀ D) (hN : N.Minimal q₀ E)
    (h : Same M N p₀ q₀) : ∃ f : σ → τ, Set.BijOn f D E ∧ f p₀ = q₀ ∧
      ∀ p ∈ D, (M.accept p ↔ N.accept (f p)) ∧ ∀ a, N.step (f p) a = (M.step p a).map f := by
  have hex (p : σ) : ∃ q, p ∈ D → q ∈ E ∧ Same M N p q := by
    by_cases hp : p ∈ D
    · obtain ⟨q, hq, hsame⟩ := hM.exists_same hN.start_mem hN.step_mem h hp
      exact ⟨q, fun _ => ⟨hq, hsame⟩⟩
    · exact ⟨q₀, fun hmem => absurd hmem hp⟩
  choose f hf using hex
  have hunique {p : σ} {q : τ} (hp : p ∈ D) (hq : q ∈ E) (hsame : Same M N p q) : f p = q :=
    hN.distinguished _ (hf p hp).1 _ hq fun l => ((hf p hp).2 l).symm.trans (hsame l)
  refine ⟨f, ⟨fun p hp => (hf p hp).1, ?_, ?_⟩, hunique hM.start_mem hN.start_mem h,
    fun p hp => ⟨?_, fun a => ?_⟩⟩
  · intro p hp p' hp' heq
    refine hM.distinguished p hp p' hp' fun l => ?_
    rw [(hf p hp).2, (hf p' hp').2, heq]
  · intro q hq
    obtain ⟨p, hp, hsame⟩ := hN.exists_same hM.start_mem hM.step_mem h.symm hq
    exact ⟨p, hp, hunique hp hq hsame.symm⟩
  · rw [← accepts_nil, (hf p hp).2, accepts_nil]
  · cases hs : M.step p a with
    | some p' =>
      have hp' := hM.step_mem hp hs
      obtain ⟨q', hq', hsame⟩ := (hf p hp).2.exists_step hs (hM.live p' hp')
      rw [hq', Option.map_some, hunique hp' (hN.step_mem (hf p hp).1 hq') hsame]
    | none =>
      cases ht : N.step (f p) a with
      | none => rfl
      | some q' =>
        have hlive := hN.live q' (hN.step_mem (hf p hp).1 ht)
        obtain ⟨p', hp', -⟩ := (hf p hp).2.symm.exists_step ht hlive
        rw [hs] at hp'
        cases hp'

/-- No automaton with the same words has fewer states. -/
theorem Minimal.card_le {D : Finset σ} {E : Finset τ} (hM : M.Minimal p₀ D) (hq₀ : q₀ ∈ E)
    (hstep : ∀ {p a q}, p ∈ E → N.step p a = some q → q ∈ E) (h : Same M N p₀ q₀) :
    D.card ≤ E.card := by
  have hex (p : σ) : ∃ q, p ∈ D → q ∈ E ∧ Same M N p q := by
    by_cases hp : p ∈ D
    · obtain ⟨q, hq, hsame⟩ := hM.exists_same (E := (E : Set τ)) hq₀ hstep h hp
      exact ⟨q, fun _ => ⟨hq, hsame⟩⟩
    · exact ⟨q₀, fun hmem => absurd hmem hp⟩
  choose f hf using hex
  refine Finset.card_le_card_of_injOn f (fun p hp => (hf p hp).1) ?_
  intro p hp p' hp' heq
  refine hM.distinguished p hp p' hp' fun l => ?_
  rw [(hf p hp).2, (hf p' hp').2, heq]

end PartialAutomaton
