import FitProjects.Lib.PartialAutomaton
import Mathlib.Data.Setoid.Basic
import Mathlib.SetTheory.Cardinal.NatCard

/-! # Equivalence by words of bounded length

States that words of at most `n` letters cannot tell apart. On a finite set of states that no step
leaves, these equivalences get finer with `n`, until they are the equivalence by all words. That
takes fewer rounds than there are states: every round before makes one more class. -/

section
variable {α : Type u} {r s : Setoid α}

/-- A finer equivalence has more classes. -/
theorem Setoid.card_quotient_lt [Finite (Quotient r)] [Finite (Quotient s)] (h : r < s) :
    Nat.card (Quotient s) < Nat.card (Quotient r) := by
  obtain ⟨hle, hnot⟩ := lt_iff_le_not_ge.mp h
  let f : Quotient r → Quotient s := Quotient.map id fun x y hxy => hle hxy
  have hsurjective : Function.Surjective f := by
    intro x
    induction x using Quotient.inductionOn with
    | h a => exact ⟨Quotient.mk r a, rfl⟩
  have hinjective : ¬ Function.Injective f := by
    intro hf
    apply hnot
    intro x y hxy
    exact Quotient.exact (hf (Quotient.sound hxy))
  have := Fintype.ofFinite (Quotient r)
  have := Fintype.ofFinite (Quotient s)
  rw [Nat.card_eq_fintype_card, Nat.card_eq_fintype_card]
  exact Fintype.card_lt_of_surjective_not_injective f hsurjective hinjective

/-- An equivalence on a finite type can be refined less often than the type has elements. -/
theorem Setoid.lt_card_of_forall_lt [Finite α] [Nonempty α] {r : Nat → Setoid α}
    (h : ∀ k < n, r (k + 1) < r k) : n < Nat.card α := by
  have hclasses : ∀ k ≤ n, k < Nat.card (Quotient (r k)) := by
    intro k hk
    induction k with
    | zero =>
      have : Nonempty (Quotient (r 0)) := .map (Quotient.mk (r 0)) inferInstance
      exact Nat.card_pos
    | succ k ih => exact Nat.lt_of_le_of_lt (ih (by omega)) (card_quotient_lt (h k hk))
  have hle : Nat.card (Quotient (r n)) ≤ Nat.card α :=
    Nat.card_le_card_of_surjective _ Quotient.mk_surjective
  exact Nat.lt_of_lt_of_le (hclasses n (Nat.le_refl n)) hle

end

namespace PartialAutomaton

variable {σ : Type u} {α : Type v} {M : PartialAutomaton σ α} {A : α → Prop} {D : Finset σ}
  {p q : σ} {n : Nat}

/-- The same words of at most `n` letters in `A` are accepted from `p` and from `q`. -/
def EquivalentUpTo (M : PartialAutomaton σ α) (A : α → Prop) (n : Nat) (p q : σ) : Prop :=
  ∀ l, l.length ≤ n → (∀ a ∈ l, A a) → (M.Accepts p l ↔ M.Accepts q l)

/-- Every state in `D` has a step to a state in `D` for each letter in `A`. -/
def Total (M : PartialAutomaton σ α) (A : α → Prop) (D : Finset σ) : Prop :=
  ∀ p ∈ D, ∀ a, A a → ∃ q ∈ D, M.step p a = some q

theorem equivalentUpTo_zero : M.EquivalentUpTo A 0 p q ↔ (M.accept p ↔ M.accept q) := by
  constructor
  · intro h
    simpa using h [] (Nat.le_refl 0) (by simp)
  · intro h l hl _
    obtain rfl := List.length_eq_zero_iff.mp (Nat.le_zero.mp hl)
    simpa using h

theorem EquivalentUpTo.mono (h : M.EquivalentUpTo A n p q) (hm : m ≤ n) :
    M.EquivalentUpTo A m p q := fun l hl => h l (Nat.le_trans hl hm)

/-- A word of `n + 1` letters is a letter and a word of `n` letters. -/
theorem equivalentUpTo_succ
    (htotal : ∀ a, A a → ∃ p' q', M.step p a = some p' ∧ M.step q a = some q') :
    M.EquivalentUpTo A (n + 1) p q ↔ M.EquivalentUpTo A n p q ∧
      ∀ a, A a → ∃ p' q', M.step p a = some p' ∧ M.step q a = some q' ∧
        M.EquivalentUpTo A n p' q' := by
  constructor
  · intro h
    refine ⟨h.mono (Nat.le_succ n), fun a ha => ?_⟩
    obtain ⟨p', q', hp, hq⟩ := htotal a ha
    refine ⟨p', q', hp, hq, fun l hl hA => ?_⟩
    rw [← accepts_cons_of_step hp, ← accepts_cons_of_step hq]
    exact h (a :: l) (Nat.succ_le_succ hl) (List.forall_mem_cons.mpr ⟨ha, hA⟩)
  · rintro ⟨hn, hsteps⟩ l hl hA
    cases l with
    | nil => exact hn [] (Nat.zero_le n) hA
    | cons a l =>
      rw [List.forall_mem_cons] at hA
      obtain ⟨p', q', hp, hq, hpq⟩ := hsteps a hA.1
      rw [accepts_cons_of_step hp, accepts_cons_of_step hq]
      exact hpq l (Nat.le_of_succ_le_succ hl) hA.2

/-- The equivalence by words of at most `n` letters, on `D`. -/
def upTo (M : PartialAutomaton σ α) (A : α → Prop) (D : Finset σ) (n : Nat) : Setoid D where
  r p q := M.EquivalentUpTo A n p q
  iseqv :=
    { refl := fun _ _ _ _ => .rfl
      symm := fun h l hl hA => (h l hl hA).symm
      trans := fun h h' l hl hA => (h l hl hA).trans (h' l hl hA) }

namespace Total

variable (h : M.Total A D)
include h

theorem exists_run (hp : p ∈ D) {l : List α} (hA : ∀ a ∈ l, A a) :
    ∃ p' ∈ D, M.run p l = some p' := by
  induction l generalizing p with
  | nil => exact ⟨p, hp, rfl⟩
  | cons a l ih =>
    rw [List.forall_mem_cons] at hA
    obtain ⟨q, hq, hstep⟩ := h p hp a hA.1
    obtain ⟨p', hp', hrun⟩ := ih hq hA.2
    exact ⟨p', hp', by rw [run, hstep, Option.bind_some, hrun]⟩

/-- Where no word gets stuck, equivalence is a fact about the states that the words reach. -/
theorem equivalent_iff_run (hp : p ∈ D) (hq : q ∈ D) :
    M.Equivalent A p q ↔ ∀ l, (∀ a ∈ l, A a) →
      ∃ p' q', M.run p l = some p' ∧ M.run q l = some q' ∧ (M.accept p' ↔ M.accept q') := by
  have haccepts {p p' : σ} {l : List α} (hrun : M.run p l = some p') :
      M.Accepts p l ↔ M.accept p' := by simp [Accepts, hrun]
  constructor
  · intro he l hA
    obtain ⟨p', -, hp'⟩ := h.exists_run hp hA
    obtain ⟨q', -, hq'⟩ := h.exists_run hq hA
    refine ⟨p', q', hp', hq', ?_⟩
    rw [← haccepts hp', ← haccepts hq']
    exact he l hA
  · intro hreached l hA
    obtain ⟨p', q', hp', hq', hiff⟩ := hreached l hA
    rw [haccepts hp', haccepts hq']
    exact hiff

end Total

/-- There are fewer rounds that tell more states apart than there are states. -/
theorem lt_card_of_refined (hD : D.Nonempty)
    (h : ∀ k < n, ∃ p ∈ D, ∃ q ∈ D, M.EquivalentUpTo A k p q ∧ ¬ M.EquivalentUpTo A (k + 1) p q) :
    n < D.card := by
  have : Nonempty D := hD.coe_sort
  rw [← Nat.card_eq_finsetCard]
  refine Setoid.lt_card_of_forall_lt (r := M.upTo A D) fun k hk => ?_
  obtain ⟨p, hp, q, hq, hpq, hnot⟩ := h k hk
  refine lt_of_le_not_ge (fun x y hxy => EquivalentUpTo.mono hxy (Nat.le_succ k)) fun hle => ?_
  exact hnot (hle (x := ⟨p, hp⟩) (y := ⟨q, hq⟩) hpq)

end PartialAutomaton
