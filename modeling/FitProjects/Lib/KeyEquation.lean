import Mathlib.Algebra.Polynomial.Derivative
import Mathlib.Algebra.Polynomial.BigOperators
import Mathlib.Algebra.Polynomial.Roots
import Mathlib.Algebra.Ring.GeomSum

/-! # The key equation

The errors of a word are values `y i` at locations `x i`. The polynomial whose roots are the
inverses of the locations, the one that gives the values at these roots, and the power sums of the
errors are related by one equation; the values come out of it as quotients. -/

namespace KeyEquation

open Polynomial

section
variable {F : Type u} [Field F] {ι : Type v} (x y : ι → F) (s : Finset ι)

/-- The error locator. -/
noncomputable def locator : F[X] := ∏ i ∈ s, (1 - C (x i) * X)

/-- The error evaluator. -/
noncomputable def evaluator [DecidableEq ι] : F[X] :=
  ∑ i ∈ s, C (y i * x i) * locator x (s.erase i)

/-- The power sum of the errors. -/
def syndrome (j : Nat) : F := ∑ i ∈ s, y i * x i ^ (j + 1)

/-- The first `n` power sums. -/
noncomputable def syndromes (n : Nat) : F[X] := ∑ j ∈ Finset.range n, C (syndrome x y s j) * X ^ j

end

variable {F : Type u} [Field F] {ι : Type v} {x y : ι → F} {s : Finset ι}

/-! ## The locator -/

@[simp] theorem coeff_zero_locator (x : ι → F) (s : Finset ι) : (locator x s).coeff 0 = 1 := by
  rw [coeff_zero_eq_eval_zero, locator, eval_prod]
  apply Finset.prod_eq_one
  intro i _
  simp

theorem natDegree_factor_le (a : F) : (1 - C a * X : F[X]).natDegree ≤ 1 := by
  apply (natDegree_sub_le ..).trans
  rw [natDegree_one, zero_max]
  exact (natDegree_C_mul_le ..).trans natDegree_X_le

theorem natDegree_locator_le (x : ι → F) (s : Finset ι) : (locator x s).natDegree ≤ s.card := by
  refine (natDegree_prod_le s _).trans ?_
  refine (Finset.sum_le_card_nsmul s _ 1 fun i _ => natDegree_factor_le (x i)).trans ?_
  rw [nsmul_one, Nat.cast_id]

theorem locator_union [DecidableEq ι] {t : Finset ι} (h : Disjoint s t) :
    locator x (s ∪ t) = locator x s * locator x t := Finset.prod_union h

theorem mul_locator_erase [DecidableEq ι] (hi : i ∈ s) :
    (1 - C (x i) * X) * locator x (s.erase i) = locator x s := Finset.mul_prod_erase s _ hi

theorem eval_locator_eq_zero_iff (hx : ∀ i ∈ s, x i ≠ 0) {z : F} :
    (locator x s).eval z = 0 ↔ ∃ i ∈ s, z = (x i)⁻¹ := by
  rw [locator, eval_prod, Finset.prod_eq_zero_iff]
  refine exists_congr fun i => and_congr_right fun hi => ?_
  rw [eval_sub, eval_one, eval_mul, eval_C, eval_X, sub_eq_zero, eq_comm, mul_comm]
  exact mul_eq_one_iff_eq_inv₀ (hx i hi)

theorem eval_locator_erase_ne_zero [DecidableEq ι] (hx : ∀ i ∈ s, x i ≠ 0) (hinj : Set.InjOn x s)
    (hi : i ∈ s) : (locator x (s.erase i)).eval (x i)⁻¹ ≠ 0 := by
  intro heq
  have hx' : ∀ j ∈ s.erase i, x j ≠ 0 := fun j hj => hx j (Finset.mem_of_mem_erase hj)
  obtain ⟨j, hj, heq⟩ := (eval_locator_eq_zero_iff hx').mp heq
  apply Finset.ne_of_mem_erase hj
  exact hinj (Finset.mem_of_mem_erase hj) hi (inv_injective heq.symm)

/-- The locator is known by its roots, its degree and its value at zero. -/
theorem eq_locator (hx : ∀ i ∈ s, x i ≠ 0) (hinj : Set.InjOn x s) {p : F[X]}
    (hdeg : p.natDegree ≤ s.card) (hzero : p.coeff 0 = 1)
    (hroots : ∀ i ∈ s, p.eval (x i)⁻¹ = 0) : p = locator x s := by
  classical
  have hcard : (insert 0 (s.image fun i => (x i)⁻¹)).card = s.card + 1 := by
    rw [Finset.card_insert_of_notMem, Finset.card_image_of_injOn]
    · exact fun i hi j hj heq => hinj hi hj (inv_injective heq)
    · rw [Finset.mem_image]
      rintro ⟨i, hi, heq⟩
      exact hx i hi (inv_eq_zero.mp heq)
  rw [← sub_eq_zero]
  apply eq_zero_of_natDegree_lt_card_of_eval_eq_zero' _ (insert 0 (s.image fun i => (x i)⁻¹))
  · intro z hz
    rw [eval_sub]
    rcases Finset.mem_insert.mp hz with rfl | hz
    · rw [← coeff_zero_eq_eval_zero, ← coeff_zero_eq_eval_zero, hzero, coeff_zero_locator, sub_self]
    · obtain ⟨i, hi, rfl⟩ := Finset.mem_image.mp hz
      rw [hroots i hi, (eval_locator_eq_zero_iff hx).mpr ⟨i, hi, rfl⟩, sub_self]
  · rw [hcard]
    apply Nat.lt_succ_of_le
    exact (natDegree_sub_le ..).trans (max_le hdeg (natDegree_locator_le x s))

/-! ## The evaluator -/

variable [DecidableEq ι]

theorem natDegree_evaluator_le (x y : ι → F) (s : Finset ι) :
    (evaluator x y s).natDegree ≤ s.card - 1 := by
  apply natDegree_sum_le_of_forall_le
  intro i hi
  refine (natDegree_C_mul_le ..).trans ?_
  rw [← Finset.card_erase_of_mem hi]
  exact natDegree_locator_le ..

theorem coeff_evaluator_eq_zero (hj : s.card ≤ j) : (evaluator x y s).coeff j = 0 := by
  rcases s.eq_empty_or_nonempty with rfl | hs
  · rw [evaluator, Finset.sum_empty, coeff_zero]
  · apply coeff_eq_zero_of_natDegree_lt
    have hpos := Finset.card_pos.mpr hs
    have hle := natDegree_evaluator_le x y s
    omega

/-- At the root of a location the other summands vanish. -/
theorem eval_evaluator (hx : ∀ i ∈ s, x i ≠ 0) (hi : i ∈ s) :
    (evaluator x y s).eval (x i)⁻¹ = y i * x i * (locator x (s.erase i)).eval (x i)⁻¹ := by
  rw [evaluator, eval_finsetSum, Finset.sum_eq_single_of_mem i hi, eval_mul, eval_C]
  intro j _ hne
  have hx' : ∀ k ∈ s.erase j, x k ≠ 0 := fun k hk => hx k (Finset.mem_of_mem_erase hk)
  have hroot : (locator x (s.erase j)).eval (x i)⁻¹ = 0 :=
    (eval_locator_eq_zero_iff hx').mpr ⟨i, Finset.mem_erase.mpr ⟨hne.symm, hi⟩, rfl⟩
  rw [eval_mul, hroot, mul_zero]

theorem eval_derivative_locator (hx : ∀ i ∈ s, x i ≠ 0) (hi : i ∈ s) :
    (derivative (locator x s)).eval (x i)⁻¹ =
      -(x i * (locator x (s.erase i)).eval (x i)⁻¹) := by
  rw [← mul_locator_erase hi, derivative_mul, eval_add, eval_mul, eval_mul]
  have hroot : (1 - C (x i) * X : F[X]).eval (x i)⁻¹ = 0 := by
    rw [eval_sub, eval_one, eval_mul, eval_C, eval_X, mul_inv_cancel₀ (hx i hi), sub_self]
  rw [hroot, zero_mul, add_zero, derivative_sub, derivative_one, derivative_C_mul_X, zero_sub,
    eval_neg, eval_C, neg_mul]

/-- The value of an error is a quotient of evaluator and locator at the root of its location. -/
theorem value_eq (hx : ∀ i ∈ s, x i ≠ 0) (hinj : Set.InjOn x s) (hi : i ∈ s) :
    y i = -((evaluator x y s).eval (x i)⁻¹ / (derivative (locator x s)).eval (x i)⁻¹) := by
  have hne := mul_ne_zero (hx i hi) (eval_locator_erase_ne_zero hx hinj hi)
  rw [eval_evaluator hx hi, eval_derivative_locator hx hi, mul_assoc, div_neg, neg_neg,
    mul_div_cancel_right₀ _ hne]

theorem eval_evaluator_ne_zero (hx : ∀ i ∈ s, x i ≠ 0) (hinj : Set.InjOn x s) (hi : i ∈ s)
    (hy : y i ≠ 0) : (evaluator x y s).eval (x i)⁻¹ ≠ 0 := by
  rw [eval_evaluator hx hi]
  exact mul_ne_zero (mul_ne_zero hy (hx i hi)) (eval_locator_erase_ne_zero hx hinj hi)

/-! ## The equation -/

omit [DecidableEq ι] in
theorem syndromes_eq (x y : ι → F) (s : Finset ι) (n : Nat) :
    syndromes x y s n =
      ∑ i ∈ s, C (y i * x i) * ∑ j ∈ Finset.range n, (C (x i) * X) ^ j := by
  simp only [syndromes, syndrome, map_sum, Finset.sum_mul, Finset.mul_sum]
  rw [Finset.sum_comm]
  refine Finset.sum_congr rfl fun i _ => Finset.sum_congr rfl fun j _ => ?_
  rw [mul_pow, ← C_pow, ← mul_assoc, ← C_mul, pow_succ', mul_assoc (y i)]

/-- Times the locator, the power sums are the evaluator up to a multiple of `X ^ n`. -/
theorem locator_mul_syndromes (x y : ι → F) (s : Finset ι) (n : Nat) :
    locator x s * syndromes x y s n = evaluator x y s -
      X ^ n * ∑ i ∈ s, C (y i * x i * x i ^ n) * locator x (s.erase i) := by
  rw [syndromes_eq, evaluator, Finset.mul_sum, Finset.mul_sum, ← Finset.sum_sub_distrib]
  refine Finset.sum_congr rfl fun i hi => ?_
  have hgeom : (1 - C (x i) * X) * ∑ j ∈ Finset.range n, (C (x i) * X) ^ j =
      1 - C (x i ^ n) * X ^ n := by
    rw [mul_neg_geom_sum, mul_pow, C_pow]
  calc locator x s * (C (y i * x i) * ∑ j ∈ Finset.range n, (C (x i) * X) ^ j)
      = C (y i * x i) * locator x (s.erase i) *
          ((1 - C (x i) * X) * ∑ j ∈ Finset.range n, (C (x i) * X) ^ j) := by
        rw [← mul_locator_erase hi]
        ring
    _ = C (y i * x i) * locator x (s.erase i) -
          X ^ n * (C (y i * x i * x i ^ n) * locator x (s.erase i)) := by
        rw [hgeom, C_mul (a := y i * x i)]
        ring

theorem coeff_locator_mul_syndromes (hj : j < n) :
    (locator x s * syndromes x y s n).coeff j = (evaluator x y s).coeff j := by
  rw [locator_mul_syndromes, coeff_sub, coeff_X_pow_mul', if_neg (Nat.not_le_of_lt hj), sub_zero]

/-- At most `n` errors whose first `n` power sums are zero are none. -/
theorem value_eq_zero (hx : ∀ i ∈ s, x i ≠ 0) (hinj : Set.InjOn x s) (hcard : s.card ≤ n)
    (hzero : ∀ j < n, syndrome x y s j = 0) (hi : i ∈ s) : y i = 0 := by
  have hsyn : syndromes x y s n = 0 := by
    apply Finset.sum_eq_zero
    intro j hj
    rw [hzero j (Finset.mem_range.mp hj), C_0, zero_mul]
  have hevaluator : evaluator x y s = 0 := by
    ext j
    rcases Nat.lt_or_ge j n with hj | hj
    · rw [← coeff_locator_mul_syndromes hj, hsyn, mul_zero]
    · exact coeff_evaluator_eq_zero (hcard.trans hj)
  by_contra hy
  apply eval_evaluator_ne_zero hx hinj hi hy
  rw [hevaluator, eval_zero]

end KeyEquation
