import FitProjects.BMS.Galois
import Mathlib.Algebra.Polynomial.Coeff
import Mathlib.Algebra.Polynomial.BigOperators

/-! # Polynomials in arrays

The polynomial arithmetic of `lib/berlekamp.c`. A polynomial is an array of `MAXDEG` coefficients, a
product one of twice as many. `copy_poly` is an assignment here. -/

namespace Rscode

/-- `NPAR` -/
def npar : Nat := 109

/-- `MAXDEG` -/
def maxdeg : Nat := npar * 2

abbrev Poly : Type := Vector GF256 maxdeg

/-- An entry of an array. -/
def entry (p : Vector GF256 n) (i : Nat) : GF256 := p[i]?.getD 0

/-- The array with the entries of a function. -/
def tabulate (n : Nat) (f : Nat → GF256) : Vector GF256 n := Vector.ofFn fun i : Fin n => f i

/-- `zero_poly` and the assignment of 1 to the first coefficient. -/
def onePoly : Poly := tabulate maxdeg fun i => if i = 0 then 1 else 0

def addPolys (dst src : Poly) : Poly := tabulate maxdeg fun i => entry dst i ^^^ entry src i

def scalePoly (k : GF256) (poly : Poly) : Poly := tabulate maxdeg fun i => gmult k (entry poly i)

/-- Multiplication by `z`; the last coefficient is lost. -/
def mulZPoly (src : Poly) : Poly := tabulate maxdeg fun i => if i = 0 then 0 else entry src (i - 1)

/-- A turn of the outer loop of `mult_polys`: `tmp1` is scaled, shifted and added to `dst`. -/
def multPolysTurn (p1 p2 : Poly) (dst : Vector GF256 (maxdeg * 2)) (i : Nat) :
    Vector GF256 (maxdeg * 2) :=
  let tmp1 := tabulate (maxdeg * 2) fun j =>
    if j < maxdeg then gmult (entry p2 j) (entry p1 i) else 0
  let tmp1 := tabulate (maxdeg * 2) fun j => if j < i then 0 else entry tmp1 (j - i)
  tabulate (maxdeg * 2) fun j => entry dst j ^^^ entry tmp1 j

def multPolys (p1 p2 : Poly) : Vector GF256 (maxdeg * 2) :=
  (List.range maxdeg).foldl (multPolysTurn p1 p2) (tabulate _ fun _ => 0)

/-! ## The polynomial of an array -/

open Polynomial

@[irreducible] noncomputable def toPoly (p : Vector GF256 n) : GF256[X] :=
  ∑ i ∈ Finset.range n, C (entry p i) * X ^ i

@[simp] theorem entry_tabulate (n : Nat) (f : Nat → GF256) (i : Nat) :
    entry (tabulate n f) i = if i < n then f i else 0 := by
  rw [entry, tabulate, Vector.getElem?_ofFn]
  split <;> rfl

theorem entry_of_le {p : Vector GF256 n} (hi : n ≤ i) : entry p i = 0 := by
  rw [entry, Vector.getElem?_eq_none hi, Option.getD_none]

@[simp] theorem coeff_toPoly (p : Vector GF256 n) (j : Nat) : (toPoly p).coeff j = entry p j := by
  rw [toPoly, finsetSum_coeff]
  simp only [coeff_C_mul_X_pow, Finset.sum_ite_eq, Finset.mem_range]
  split
  next => rfl
  next hj => exact (entry_of_le (Nat.le_of_not_lt hj)).symm

theorem toPoly_eq_iff {p : Vector GF256 n} {q : GF256[X]} :
    toPoly p = q ↔ ∀ j, entry p j = q.coeff j := by
  simp only [Polynomial.ext_iff, coeff_toPoly]

@[simp] theorem toPoly_onePoly : toPoly onePoly = 1 := by
  rw [toPoly_eq_iff]
  intro j
  rw [onePoly, entry_tabulate, coeff_one]
  split
  next => rfl
  next hj => rw [if_neg (by rintro rfl; exact hj (Nat.zero_lt_succ _))]

theorem toPoly_addPolys (dst src : Poly) : toPoly (addPolys dst src) = toPoly dst + toPoly src := by
  rw [toPoly_eq_iff]
  intro j
  rw [addPolys, entry_tabulate, coeff_add, coeff_toPoly, coeff_toPoly]
  split
  next => rfl
  next hj =>
    rw [entry_of_le (Nat.le_of_not_lt hj), entry_of_le (Nat.le_of_not_lt hj), add_zero]

theorem toPoly_scalePoly (k : GF256) (poly : Poly) :
    toPoly (scalePoly k poly) = C k * toPoly poly := by
  rw [toPoly_eq_iff]
  intro j
  rw [scalePoly, entry_tabulate, coeff_C_mul, coeff_toPoly, gmult_eq_mul]
  split
  next => rfl
  next hj => rw [entry_of_le (Nat.le_of_not_lt hj), mul_zero]

/-- The shift loses nothing of a polynomial that is short enough. -/
theorem toPoly_mulZPoly {src : Poly} (h : (toPoly src).natDegree + 1 < maxdeg) :
    toPoly (mulZPoly src) = X * toPoly src := by
  rw [toPoly_eq_iff]
  intro j
  rw [mulZPoly, entry_tabulate]
  cases j with
  | zero => rw [coeff_X_mul_zero, if_pos rfl, ite_self]
  | succ j =>
    rw [coeff_X_mul, coeff_toPoly, if_neg (Nat.succ_ne_zero j), Nat.add_sub_cancel]
    split
    next => rfl
    next hj =>
      rw [← coeff_toPoly]
      exact (coeff_eq_zero_of_natDegree_lt (by omega)).symm

/-- A turn adds a multiple of the second factor. -/
theorem toPoly_multPolysTurn (p1 p2 : Poly) (dst : Vector GF256 (maxdeg * 2)) (hi : i < maxdeg) :
    toPoly (multPolysTurn p1 p2 dst i) = toPoly dst + C (entry p1 i) * X ^ i * toPoly p2 := by
  rw [toPoly_eq_iff]
  intro j
  rw [coeff_add, coeff_toPoly, mul_assoc, coeff_C_mul, coeff_X_pow_mul', coeff_toPoly]
  simp only [multPolysTurn, entry_tabulate, GF256.xor_eq_add, gmult_eq_mul]
  rcases Nat.lt_or_ge j (maxdeg * 2) with hj | hj
  · rw [if_pos hj, if_pos hj]
    rcases Nat.lt_or_ge j i with hij | hij
    · rw [if_pos hij, if_neg (Nat.not_le_of_lt hij), mul_zero]
    · rw [if_neg (Nat.not_lt_of_le hij), if_pos hij, if_pos (by omega)]
      split
      next => rw [mul_comm (entry p2 _)]
      next hlt => rw [entry_of_le (Nat.le_of_not_lt hlt), mul_zero]
  · have hsub : entry p2 (j - i) = 0 := entry_of_le (by omega)
    rw [if_neg (Nat.not_lt_of_le hj), entry_of_le hj, hsub, ite_self, mul_zero, add_zero]

theorem toPoly_multPolys (p1 p2 : Poly) : toPoly (multPolys p1 p2) = toPoly p1 * toPoly p2 := by
  have hloop : ∀ n ≤ maxdeg,
      toPoly ((List.range n).foldl (multPolysTurn p1 p2) (tabulate _ fun _ => 0)) =
        ∑ i ∈ Finset.range n, C (entry p1 i) * X ^ i * toPoly p2 := by
    intro n hn
    induction n with
    | zero =>
      rw [Finset.range_zero, Finset.sum_empty, toPoly_eq_iff]
      intro j
      rw [List.range_zero, List.foldl_nil, entry_tabulate, ite_self, coeff_zero]
    | succ n ih =>
      rw [List.range_succ, List.foldl_append, List.foldl_cons, List.foldl_nil,
        toPoly_multPolysTurn _ _ _ hn, ih (Nat.le_of_succ_le hn), Finset.sum_range_succ]
  have hfactor : toPoly p1 = ∑ i ∈ Finset.range maxdeg, C (entry p1 i) * X ^ i := by rw [toPoly]
  rw [multPolys, hloop maxdeg (Nat.le_refl _), ← Finset.sum_mul, hfactor]

/-- A loop that sums up is the sum. -/
theorem foldl_xor_eq_sum (n : Nat) (f : Nat → GF256) :
    (List.range n).foldl (fun sum i => sum ^^^ f i) 0 = ∑ i ∈ Finset.range n, f i := by
  induction n with
  | zero => rfl
  | succ n ih =>
    rw [List.range_succ, List.foldl_append, ih, Finset.sum_range_succ]
    rfl

theorem eval_toPoly (p : Vector GF256 n) (z : GF256) :
    (toPoly p).eval z = ∑ i ∈ Finset.range n, entry p i * z ^ i := by
  simp only [toPoly, eval_finsetSum, eval_mul, eval_C, eval_pow, eval_X]

end Rscode
