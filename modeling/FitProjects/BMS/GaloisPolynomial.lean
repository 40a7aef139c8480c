import FitProjects.BMS.Galois
import Mathlib.Algebra.Polynomial.Div
import Mathlib.Algebra.Polynomial.BigOperators
import Mathlib.Data.ZMod.Basic
import Mathlib.Algebra.Field.ZMod
import Mathlib.Tactic.ComputeDegree

/-! # The polynomial behind the tables

The comment of `PPOLY` in `lib/galois.c` names a polynomial of degree 8. The products of the tables
are the products of the bytes, read as polynomials over two elements, modulo this polynomial. -/

namespace Rscode

open Polynomial

/-- `x^8 + x^4 + x^3 + x^2 + 1` -/
noncomputable def ppoly : (ZMod 2)[X] := X ^ 8 + X ^ 4 + X ^ 3 + X ^ 2 + 1

/-- A byte as a polynomial: bit `k` is the coefficient of `x^k`. -/
noncomputable def bits (a : GF256) : (ZMod 2)[X] :=
  ∑ k ∈ Finset.range 8, if a.byte.toNat.testBit k then X ^ k else 0

/-- The value of a polynomial at the generator. -/
noncomputable def evalAlpha : (ZMod 2)[X] →+* GF256 :=
  eval₂RingHom (ZMod.castHom (dvd_refl 2) GF256) alpha

theorem evalAlpha_X : evalAlpha X = alpha := eval₂_X ..

theorem alpha_pow_lt_eight : alpha ^ 0 = ⟨1⟩ ∧ alpha ^ 1 = ⟨2⟩ ∧ alpha ^ 2 = ⟨4⟩ ∧ alpha ^ 3 = ⟨8⟩ ∧
    alpha ^ 4 = ⟨16⟩ ∧ alpha ^ 5 = ⟨32⟩ ∧ alpha ^ 6 = ⟨64⟩ ∧ alpha ^ 7 = ⟨128⟩ := by
  simp only [← iterate_shift_eq_pow]
  exact ⟨rfl, rfl, rfl, rfl, rfl, rfl, rfl, rfl⟩

set_option maxRecDepth 8000 in
theorem evalAlpha_ppoly : evalAlpha ppoly = 0 := by
  have hsum : shift^[8] (⟨1⟩ : GF256) ^^^ shift^[4] ⟨1⟩ ^^^ shift^[3] ⟨1⟩ ^^^ shift^[2] ⟨1⟩ ^^^
      ⟨1⟩ = 0 := by
    decide
  rw [ppoly]
  simp only [map_add, map_pow, map_one, evalAlpha_X]
  simp only [iterate_shift_eq_pow] at hsum
  exact hsum

/-- A sum of chosen powers below 8. -/
theorem sum_alpha_pow (c : Nat → Bool) :
    (∑ k ∈ Finset.range 8, if c k then alpha ^ k else 0) =
      (if c 0 then ⟨1⟩ else 0) ^^^ (if c 1 then ⟨2⟩ else 0) ^^^ (if c 2 then ⟨4⟩ else 0) ^^^
        (if c 3 then ⟨8⟩ else 0) ^^^ (if c 4 then ⟨16⟩ else 0) ^^^ (if c 5 then ⟨32⟩ else 0) ^^^
        (if c 6 then ⟨64⟩ else 0) ^^^ (if c 7 then ⟨128⟩ else 0) := by
  obtain ⟨h0, h1, h2, h3, h4, h5, h6, h7⟩ := alpha_pow_lt_eight
  rw [← h0, ← h1, ← h2, ← h3, ← h4, ← h5, ← h6, ← h7]
  simp only [Finset.sum_range_succ, Finset.range_zero, Finset.sum_empty, zero_add,
    GF256.xor_eq_add]

set_option maxRecDepth 8000 in
/-- A byte is the value of its polynomial. -/
theorem evalAlpha_bits (a : GF256) : evalAlpha (bits a) = a := by
  have hmap : evalAlpha (bits a) =
      ∑ k ∈ Finset.range 8, if a.byte.toNat.testBit k then alpha ^ k else 0 := by
    rw [bits, map_sum]
    refine Finset.sum_congr rfl fun k _ => ?_
    rw [apply_ite evalAlpha, map_pow, evalAlpha_X, map_zero]
  have hall : ∀ n : Fin 256,
      ((if n.val.testBit 0 then (⟨1⟩ : GF256) else 0) ^^^ (if n.val.testBit 1 then ⟨2⟩ else 0) ^^^
        (if n.val.testBit 2 then ⟨4⟩ else 0) ^^^ (if n.val.testBit 3 then ⟨8⟩ else 0) ^^^
        (if n.val.testBit 4 then ⟨16⟩ else 0) ^^^ (if n.val.testBit 5 then ⟨32⟩ else 0) ^^^
        (if n.val.testBit 6 then ⟨64⟩ else 0) ^^^ (if n.val.testBit 7 then ⟨128⟩ else 0)) =
          ⟨UInt8.ofNat n⟩ := by decide
  rw [hmap, sum_alpha_pow fun k => a.byte.toNat.testBit k]
  have hbyte := hall ⟨a.byte.toNat, a.byte.toNat_lt⟩
  rwa [UInt8.ofNat_toNat] at hbyte

set_option maxRecDepth 8000 in
/-- No polynomial of degree below 8 but zero has the generator as a root. -/
theorem eq_zero_of_evalAlpha {p : (ZMod 2)[X]} (hdeg : p.natDegree < 8) (h : evalAlpha p = 0) :
    p = 0 := by
  have hcoeff : ∀ a : ZMod 2, (ZMod.castHom (dvd_refl 2) GF256) a = if a ≠ 0 then 1 else 0 := by
    intro a
    have hcases : ∀ a : ZMod 2, a = 0 ∨ a = 1 := by decide
    rcases hcases a with rfl | rfl
    · rw [map_zero, if_neg (not_not.mpr rfl)]
    · rw [map_one, if_pos one_ne_zero]
  have hsum : evalAlpha p =
      ∑ k ∈ Finset.range 8, if decide (p.coeff k ≠ 0) then alpha ^ k else 0 := by
    refine (eval₂_eq_sum_range' _ hdeg alpha).trans (Finset.sum_congr rfl fun k _ => ?_)
    rw [hcoeff, ite_mul, one_mul, zero_mul]
    simp only [decide_eq_true_eq]
  have hall : ∀ c0 c1 c2 c3 c4 c5 c6 c7 : Bool,
      ((if c0 then (⟨1⟩ : GF256) else 0) ^^^ (if c1 then ⟨2⟩ else 0) ^^^ (if c2 then ⟨4⟩ else 0) ^^^
        (if c3 then ⟨8⟩ else 0) ^^^ (if c4 then ⟨16⟩ else 0) ^^^ (if c5 then ⟨32⟩ else 0) ^^^
        (if c6 then ⟨64⟩ else 0) ^^^ (if c7 then ⟨128⟩ else 0)) = 0 →
      (c0 || (c1 || (c2 || (c3 || (c4 || (c5 || (c6 || c7))))))) = false := by decide
  rw [hsum, sum_alpha_pow fun k => decide (p.coeff k ≠ 0)] at h
  have hbits := hall _ _ _ _ _ _ _ _ h
  simp only [Bool.or_eq_false_iff, decide_eq_false_iff_not, not_not] at hbits
  obtain ⟨h0, h1, h2, h3, h4, h5, h6, h7⟩ := hbits
  ext k
  rcases Nat.lt_or_ge k 8 with hk | hk
  · interval_cases k
    all_goals rw [coeff_zero]; assumption
  · rw [coeff_eq_zero_of_natDegree_lt (Nat.lt_of_lt_of_le hdeg hk), coeff_zero]

theorem natDegree_ppoly : ppoly.natDegree = 8 := by
  rw [ppoly]
  compute_degree!

theorem ppoly_monic : ppoly.Monic := by
  rw [Monic, leadingCoeff, natDegree_ppoly, ppoly]
  simp [coeff_X_pow, coeff_one]

/-- A polynomial with the generator as a root is a multiple. -/
theorem ppoly_dvd_of_evalAlpha {p : (ZMod 2)[X]} (h : evalAlpha p = 0) : ppoly ∣ p := by
  rw [← modByMonic_eq_zero_iff_dvd ppoly_monic]
  apply eq_zero_of_evalAlpha
  · have hlt := natDegree_modByMonic_lt p ppoly_monic (by
      intro hone
      have hdeg := natDegree_ppoly
      rw [hone, natDegree_one] at hdeg
      exact absurd hdeg (by decide))
    rwa [natDegree_ppoly] at hlt
  · have hdiv := congrArg evalAlpha (modByMonic_add_div p ppoly)
    rwa [map_add, map_mul, evalAlpha_ppoly, zero_mul, add_zero, h] at hdiv

/-- The product of the tables is the product of the polynomials modulo `ppoly`, the inverse of the
tables its inverse. -/
theorem gmult_eq_mod_ppoly (a b : GF256) :
    ppoly ∣ bits a * bits b - bits (gmult a b) ∧ (a ≠ 0 → ppoly ∣ bits a * bits (ginv a) - 1) := by
  constructor
  · apply ppoly_dvd_of_evalAlpha
    rw [map_sub, map_mul, evalAlpha_bits, evalAlpha_bits, evalAlpha_bits, gmult_eq_mul, sub_self]
  · intro ha
    apply ppoly_dvd_of_evalAlpha
    rw [map_sub, map_mul, map_one, evalAlpha_bits, evalAlpha_bits, ginv_eq_inv ha,
      mul_inv_cancel₀ ha, sub_self]

end Rscode
