import Mathlib.Algebra.Order.Ring.Defs
import Mathlib.Tactic.LinearCombination
import Mathlib.Tactic.Linarith
import Mathlib.Tactic.Ring
import Mathlib.Tactic.Positivity

/-! # Orientation in the plane

Points with coordinates in an ordered ring, and the side of the line `p q` that a point is on: the
sign of `orient p q`. Open segments and interiors of triangles are described by positive weights,
which need not add up to one, so that the descriptions make sense over the integers. -/

/-- A point of the plane. -/
@[ext] structure Point (R : Type u) where
  x : R
  y : R
  deriving DecidableEq, Repr

namespace Point

section
variable {R : Type u} [CommRing R] {p q r z : Point R}

/-- Twice the signed area of the triangle `p q r`; positive when `r` is to the left of `p q`. -/
def orient (p q r : Point R) : R := (q.x - p.x) * (r.y - p.y) - (q.y - p.y) * (r.x - p.x)

theorem orient_rotate (p q r : Point R) : orient q r p = orient p q r := by
  simp only [orient]; ring

theorem orient_swap (p q r : Point R) : orient q p r = -orient p q r := by
  simp only [orient]; ring

theorem orient_flip (p q r : Point R) : orient p r q = -orient p q r := by
  simp only [orient]; ring

theorem orient_add (p q r z : Point R) :
    orient p q z + orient q r z + orient r p z = orient p q r := by
  simp only [orient]; ring

/-- A point as a combination of the corners of a triangle. -/
theorem orient_mul_x (p q r z : Point R) : orient p q r * z.x =
    orient q r z * p.x + orient r p z * q.x + orient p q z * r.x := by
  simp only [orient]; ring

theorem orient_mul_y (p q r z : Point R) : orient p q r * z.y =
    orient q r z * p.y + orient r p z * q.y + orient p q z * r.y := by
  simp only [orient]; ring

end

section
variable {R : Type u} [CommRing R] [LinearOrder R] [IsStrictOrderedRing R] {p q r z : Point R}

/-- `z` is between `p` and `q`, and neither of them. -/
def OpenSegment (p q z : Point R) : Prop :=
  ∃ i j : R, 0 < i ∧ 0 < j ∧
    (i + j) * z.x = i * p.x + j * q.x ∧ (i + j) * z.y = i * p.y + j * q.y

/-- `z` is strictly inside the triangle `p q r`. -/
def Interior (p q r z : Point R) : Prop :=
  ∃ i j k : R, 0 < i ∧ 0 < j ∧ 0 < k ∧
    (i + j + k) * z.x = i * p.x + j * q.x + k * r.x ∧
    (i + j + k) * z.y = i * p.y + j * q.y + k * r.y

theorem OpenSegment.symm (h : OpenSegment p q z) : OpenSegment q p z := by
  obtain ⟨i, j, hi, hj, hx, hy⟩ := h
  exact ⟨j, i, hj, hi, by linear_combination hx, by linear_combination hy⟩

theorem Interior.rotate (h : Interior p q r z) : Interior q r p z := by
  obtain ⟨i, j, k, hi, hj, hk, hx, hy⟩ := h
  exact ⟨j, k, i, hj, hk, hi, by linear_combination hx, by linear_combination hy⟩

theorem Interior.swap (h : Interior p q r z) : Interior q p r z := by
  obtain ⟨i, j, k, hi, hj, hk, hx, hy⟩ := h
  exact ⟨j, i, k, hj, hi, hk, by linear_combination hx, by linear_combination hy⟩

/-- A point of a segment is on the side of `r` that the segment comes from. -/
theorem OpenSegment.orient_pos (h : OpenSegment p q z) (hr : 0 < orient p q r) :
    0 < orient q r z ∧ 0 < orient r p z := by
  obtain ⟨i, j, hi, hj, hx, hy⟩ := h
  have hqr : (i + j) * orient q r z = i * orient p q r := by
    simp only [orient]
    linear_combination (r.x - q.x) * hy - (r.y - q.y) * hx
  have hrp : (i + j) * orient r p z = j * orient p q r := by
    simp only [orient]
    linear_combination (p.x - r.x) * hy - (p.y - r.y) * hx
  have hij := add_pos hi hj
  constructor
  · exact (mul_pos_iff_of_pos_left hij).mp (hqr ▸ mul_pos hi hr)
  · exact (mul_pos_iff_of_pos_left hij).mp (hrp ▸ mul_pos hj hr)

/-- An interior point is to the left of the edge `p q`. -/
theorem Interior.orient_pos (h : Interior p q r z) (hr : 0 < orient p q r) :
    0 < orient p q z := by
  obtain ⟨i, j, k, hi, hj, hk, hx, hy⟩ := h
  have hpq : (i + j + k) * orient p q z = k * orient p q r := by
    simp only [orient]
    linear_combination (q.x - p.x) * hy - (q.y - p.y) * hx
  exact (mul_pos_iff_of_pos_left (by positivity)).mp (hpq ▸ mul_pos hk hr)

/-- A point to the left of all edges of a triangle is between the extreme corners. -/
theorem mem_box (hr : 0 < orient p q r) (hpq : 0 ≤ orient p q z) (hqr : 0 ≤ orient q r z)
    (hrp : 0 ≤ orient r p z) (f : Point R → R)
    (hf : orient p q r * f z = orient q r z * f p + orient r p z * f q + orient p q z * f r) :
    min (f p) (min (f q) (f r)) ≤ f z ∧ f z ≤ max (f p) (max (f q) (f r)) := by
  have hadd := orient_add p q r z
  constructor
  · refine le_of_mul_le_mul_left ?_ hr
    have hp := mul_le_mul_of_nonneg_left (min_le_left (f p) (min (f q) (f r))) hqr
    have hq := mul_le_mul_of_nonneg_left
      ((min_le_right (f p) _).trans (min_le_left (f q) (f r))) hrp
    have hr' := mul_le_mul_of_nonneg_left
      ((min_le_right (f p) _).trans (min_le_right (f q) (f r))) hpq
    rw [hf, ← hadd]
    linarith
  · refine le_of_mul_le_mul_left ?_ hr
    have hp := mul_le_mul_of_nonneg_left (le_max_left (f p) (max (f q) (f r))) hqr
    have hq := mul_le_mul_of_nonneg_left
      ((le_max_left (f q) (f r)).trans (le_max_right (f p) _)) hrp
    have hr' := mul_le_mul_of_nonneg_left
      ((le_max_right (f q) (f r)).trans (le_max_right (f p) _)) hpq
    rw [hf, ← hadd]
    linarith

end

end Point
