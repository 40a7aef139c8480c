import Mathlib.Data.List.Basic
import Mathlib.Logic.Relation

/-! # Transition systems

A system is an initial state and a partial step function: `step s a` is the state that action `a`
leads to, and `none` when `a` is not enabled in `s`. `ReachableUnder C` collects the states of the
runs whose steps all meet `C`, a condition on the state before the step and on the action;
`Reachable` puts no condition on the steps. Safety properties are proved with
`ReachableUnder.invariant`, concrete runs are executed with `runs`. -/

/-- An initial state and a partial step function, one action at a time. -/
structure System (σ : Type u) (α : Type v) where
  init : σ
  step : σ → α → Option σ

namespace System

variable {σ : Type u} {α : Type v} {M : System σ α} {C D : σ → α → Prop}

/-- The states of the runs all of whose steps meet `C`. -/
inductive ReachableUnder (M : System σ α) (C : σ → α → Prop) : σ → Prop
  | init : ReachableUnder M C M.init
  | step : ReachableUnder M C s → C s a → M.step s a = some s' → ReachableUnder M C s'

/-- The states of all runs. -/
def Reachable (M : System σ α) : σ → Prop := M.ReachableUnder fun _ _ => True

/-- Only the steps that meet `C`. -/
def restrict (M : System σ α) (C : σ → α → Prop) [∀ s a, Decidable (C s a)] : System σ α where
  init := M.init
  step s a := if C s a then M.step s a else none

/-- Run a list of actions, failing at the first one that is not enabled. -/
def runs (M : System σ α) : σ → List α → Option σ
  | s, [] => some s
  | s, a :: l => (M.step s a).bind fun s' => M.runs s' l

namespace ReachableUnder

/-- The invariant rule: what holds initially and is kept by every step that meets `C` holds of
every state of these runs. -/
theorem invariant {I : σ → Prop} (h0 : I M.init)
    (hstep : ∀ {s a s'}, I s → C s a → M.step s a = some s' → I s')
    (h : M.ReachableUnder C s) : I s := by
  induction h with
  | init => exact h0
  | step _ hc hs ih => exact hstep ih hc hs

/-- The conditions of a run may be strengthened by ones that hold as long as they have held. -/
theorem imp (hCD : ∀ {s a}, M.ReachableUnder D s → C s a → D s a)
    (h : M.ReachableUnder C s) : M.ReachableUnder D s := by
  induction h with
  | init => exact .init
  | step _ hc hs ih => exact .step ih (hCD ih hc) hs

end ReachableUnder

/-- The invariant rule for unconditional runs. -/
theorem Reachable.invariant {I : σ → Prop} (h0 : I M.init)
    (hstep : ∀ {s a s'}, I s → M.step s a = some s' → I s')
    (h : M.Reachable s) : I s :=
  ReachableUnder.invariant h0 (fun hi _ hs => hstep hi hs) h

theorem Reachable.step (h : M.Reachable s) (hs : M.step s a = some s') : M.Reachable s' :=
  ReachableUnder.step h trivial hs

/-- The simulation rule: if every step is matched by steps of an abstract machine then every
reachable state is related to a state that the abstract machine reaches. -/
theorem Reachable.simulation {T : τ → τ → Prop} {R : σ → τ → Prop} (h0 : R M.init t0)
    (hstep : ∀ {s a s' t}, R s t → M.step s a = some s' →
      ∃ t', Relation.ReflTransGen T t t' ∧ R s' t')
    (h : M.Reachable s) : ∃ t, Relation.ReflTransGen T t0 t ∧ R s t := by
  refine Reachable.invariant (I := fun s => ∃ t, Relation.ReflTransGen T t0 t ∧ R s t)
    ⟨t0, .refl, h0⟩ (fun hi hs => ?_) h
  obtain ⟨t, ht, hr⟩ := hi
  obtain ⟨t', ht', hr'⟩ := hstep hr hs
  exact ⟨t', ht.trans ht', hr'⟩

/-- An executed list of actions stays within the reachable states. -/
theorem Reachable.runs (h : M.Reachable s) (hr : M.runs s l = some s') : M.Reachable s' := by
  induction l generalizing s with
  | nil => cases hr; exact h
  | cons a l ih =>
    obtain ⟨t, ht, hr⟩ := Option.bind_eq_some_iff.mp hr
    exact ih (h.step ht) hr

theorem runs_append {l l' : List α} :
    M.runs s (l ++ l') = (M.runs s l).bind fun s' => M.runs s' l' := by
  induction l generalizing s with
  | nil => rfl
  | cons a l ih =>
    rw [List.cons_append, runs, runs, Option.bind_assoc]
    exact congrArg _ (funext fun t => ih)

theorem runs_concat : M.runs s (l ++ [a]) = (M.runs s l).bind fun s' => M.step s' a := by
  simp [runs_append, runs]

/-- A property of the last state of an executed list of actions, found by evaluation. -/
theorem exists_runs {p : σ → Bool} (h : (M.runs s l).any p = true) :
    ∃ s', M.runs s l = some s' ∧ p s' = true := by
  cases hr : M.runs s l with
  | none => simp [hr] at h
  | some s' => exact ⟨s', rfl, by simpa [hr] using h⟩

theorem Reachable.of_restrict [∀ s a, Decidable (C s a)] (h : (M.restrict C).Reachable s) :
    M.ReachableUnder C s := by
  induction h with
  | init => exact .init
  | step _ _ hs ih =>
    simp only [restrict, Option.ite_none_right_eq_some] at hs
    exact .step ih hs.1 hs.2

end System
