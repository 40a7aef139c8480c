import Mathlib.Data.Option.Basic
import Mathlib.Tactic.Common

/-! # Partial deterministic automata

An automaton whose step function is partial; a missing step rejects. The states of two automata
accept the same words if they are matched by a relation that the steps keep (`Matched`), where a step
on one side only must lead to a state that accepts nothing. Completing, renaming, merging and
trimming an automaton are all matched in this way. -/

/-- Steps and accepting states; the initial state is given where it is needed. -/
structure PartialAutomaton (σ : Type u) (α : Type v) where
  step : σ → α → Option σ
  accept : σ → Prop

namespace PartialAutomaton

variable {σ : Type u} {τ : Type w} {α : Type v} {M : PartialAutomaton σ α}
  {N : PartialAutomaton τ α} {A : α → Prop} {R : σ → τ → Prop}

/-- The state that a word leads to. -/
def run (M : PartialAutomaton σ α) : σ → List α → Option σ
  | q, [] => some q
  | q, a :: l => (M.step q a).bind fun q' => M.run q' l

/-- The word leads from `q` to an accepting state. -/
def Accepts (M : PartialAutomaton σ α) (q : σ) (l : List α) : Prop :=
  ∃ q', M.run q l = some q' ∧ M.accept q'

/-- No word is accepted from `q`. -/
def Dead (M : PartialAutomaton σ α) (q : σ) : Prop := ∀ l, ¬M.Accepts q l

/-- The same words with letters in `A` are accepted from `p` and from `q`. -/
def Equivalent (M : PartialAutomaton σ α) (A : α → Prop) (p q : σ) : Prop :=
  ∀ l, (∀ a ∈ l, A a) → (M.Accepts p l ↔ M.Accepts q l)

@[simp] theorem run_nil : M.run q [] = some q := rfl

@[simp] theorem accepts_nil : M.Accepts q [] ↔ M.accept q := by simp [Accepts]

theorem accepts_cons : M.Accepts q (a :: l) ↔ ∃ q', M.step q a = some q' ∧ M.Accepts q' l := by
  simp only [Accepts, run, Option.bind_eq_some_iff]
  exact ⟨fun ⟨r, ⟨q', hs, hr⟩, ha⟩ => ⟨q', hs, r, hr, ha⟩,
    fun ⟨q', hs, r, hr, ha⟩ => ⟨r, ⟨q', hs, hr⟩, ha⟩⟩

theorem accepts_cons_of_step (h : M.step q a = some q') :
    M.Accepts q (a :: l) ↔ M.Accepts q' l := by
  simp [accepts_cons, h]

theorem run_append : M.run q (l ++ l') = (M.run q l).bind fun q' => M.run q' l' := by
  induction l generalizing q with
  | nil => rfl
  | cons a l ih => simp only [List.cons_append, run, Option.bind_assoc, ih]

theorem run_concat (h : M.run q l = some r) (hs : M.step r a = some r') :
    M.run q (l ++ [a]) = some r' := by
  simp [run_append, h, run, hs]

theorem Equivalent.step (h : M.Equivalent A p q) (ha : A a) (hp : M.step p a = some p')
    (hq : M.step q a = some q') : M.Equivalent A p' q' := fun l hl => by
  rw [← accepts_cons_of_step hp, ← accepts_cons_of_step hq]
  exact h (a :: l) (List.forall_mem_cons.mpr ⟨ha, hl⟩)

/-! ## Dead states -/

/-- A class of states that is closed under steps and accepts nothing is dead. -/
theorem Dead.of_closed {D : σ → Prop} (hacc : ∀ q, D q → ¬M.accept q)
    (hstep : ∀ q a q', D q → M.step q a = some q' → D q') (hq : D q) : M.Dead q := by
  intro l
  induction l generalizing q with
  | nil => simpa using hacc q hq
  | cons a l ih =>
    rw [accepts_cons]
    rintro ⟨q', hs, hl⟩
    exact ih (hstep q a q' hq hs) hl

theorem Dead.step (h : M.Dead q) (hs : M.step q a = some q') : M.Dead q' := fun l hl =>
  h (a :: l) ((accepts_cons_of_step hs).mpr hl)

theorem Dead.not_accept (h : M.Dead q) : ¬M.accept q := fun ha => h [] (accepts_nil.mpr ha)

theorem Dead.equivalent (hp : M.Dead p) (hq : M.Dead q) : M.Equivalent A p q :=
  fun l _ => iff_of_false (hp l) (hq l)

/-! ## Matched states -/

/-- Results of steps on both sides: both missing, both there and related, or one of them dead. -/
inductive MatchedStep (M : PartialAutomaton σ α) (N : PartialAutomaton τ α) (R : σ → τ → Prop) :
    Option σ → Option τ → Prop
  | none : MatchedStep M N R none none
  | some (h : R q r) : MatchedStep M N R (some q) (some r)
  | left (h : M.Dead q) : MatchedStep M N R (some q) none
  | right (h : N.Dead r) : MatchedStep M N R none (some r)

/-- `R` is kept by the steps with letters in `A`, and related states agree on accepting. -/
structure Matched (M : PartialAutomaton σ α) (N : PartialAutomaton τ α) (A : α → Prop)
    (R : σ → τ → Prop) : Prop where
  accept (h : R q r) : M.accept q ↔ N.accept r
  step (h : R q r) (ha : A a) : MatchedStep M N R (M.step q a) (N.step r a)

/-- Matched states accept the same words. -/
theorem Matched.accepts (h : Matched M N A R) (hR : R q r) (hl : ∀ a ∈ l, A a) :
    M.Accepts q l ↔ N.Accepts r l := by
  induction l generalizing q r with
  | nil => simpa using h.accept hR
  | cons a l ih =>
    have hs := h.step hR (hl a List.mem_cons_self)
    have hl' : ∀ b ∈ l, A b := fun b hb => hl b (List.mem_cons_of_mem a hb)
    generalize hq : M.step q a = oq at hs
    generalize hr : N.step r a = or at hs
    simp only [accepts_cons, hq, hr]
    cases hs with
    | none => simp
    | some hqr => simpa using ih hqr hl'
    | left hd => simpa using hd l
    | right hd => simpa using hd l

theorem Matched.dead (h : Matched M N A R) (hA : ∀ a, A a) (hR : R q r) :
    M.Dead q ↔ N.Dead r :=
  forall_congr' fun _ => not_congr (h.accepts hR fun a _ => hA a)

end PartialAutomaton
