import FitProjects.Lib.Orientation
import Mathlib.Data.List.Permutation

/-! # Filling a triangle

The rasterization of `studrenDrawTriangle`: the box of the triangle cut to the window, the three
edge functions with their correction for pixels on an edge, and the loops over the box, which keep
the edge functions up to date by additions. Colours and depths, which are floating-point numbers,
are left out; a pixel is drawn where all three edge functions are not negative. -/

namespace StudentRenderer

/-- The line `a * x + b * y + c = 0`. -/
structure Edge where
  a : Int
  b : Int
  c : Int
  deriving DecidableEq, Repr

def Edge.eval (e : Edge) (x y : Int) : Int := e.a * x + e.b * y + e.c

/-- The edge from `p` to `q`, with the correction of the coefficient `c`. -/
def edge (p q : Point Int) : Edge where
  a := p.y - q.y
  b := q.x - p.x
  c := p.x * q.y - q.x * p.y - if (p.y = q.y ∧ q.x > p.x) ∨ q.y < p.y then 1 else 0

/-- The corners in counterclockwise order: the second and the third change places where the vector
product is negative. -/
def orientate (v1 v2 v3 : Point Int) : Point Int × Point Int × Point Int :=
  let a1 := v2.x - v1.x
  let a3 := v3.x - v1.x
  let b1 := v2.y - v1.y
  let b3 := v3.y - v1.y
  if a1 * b3 - b1 * a3 < 0 then (v1, v3, v2) else (v1, v2, v3)

/-- The edges of the triangle. -/
structure Edges where
  e1 : Edge
  e2 : Edge
  e3 : Edge
  deriving DecidableEq, Repr

def edges (v1 v2 v3 : Point Int) : Edges :=
  let (v1, v2, v3) := orientate v1 v2 v3
  ⟨edge v1 v2, edge v2 v3, edge v3 v1⟩

/-- One turn of the inner loop. -/
structure Iteration where
  x : Int
  y : Int
  e1 : Int
  e2 : Int
  e3 : Int
  deriving DecidableEq, Repr

/-- The inner loop, `n` turns from `x` on. -/
def fillRow (t : Edges) (y : Int) : Nat → Int → Int → Int → Int → List Iteration
  | 0, _, _, _, _ => []
  | n + 1, x, e1, e2, e3 =>
    ⟨x, y, e1, e2, e3⟩ :: fillRow t y n (x + 1) (e1 + t.e1.a) (e2 + t.e2.a) (e3 + t.e3.a)

/-- The turns of `for (x = lo; x <= hi; ++x)`. -/
def turns (lo hi : Int) : Nat := (hi + 1 - lo).toNat

/-- The outer loop, `n` turns from `y` on. -/
def fillRows (t : Edges) (minx maxx : Int) : Nat → Int → List Iteration
  | 0, _ => []
  | n + 1, y =>
    let e1 := t.e1.a * minx + t.e1.b * y + t.e1.c
    let e2 := t.e2.a * minx + t.e2.b * y + t.e2.c
    let e3 := t.e3.a * minx + t.e3.b * y + t.e3.c
    fillRow t y (turns minx maxx) minx e1 e2 e3 ++ fillRows t minx maxx n (y + 1)

/-- The turns of the loops of `studrenDrawTriangle`. -/
def studrenDrawTriangle (frame_w frame_h : Int) (v1 v2 v3 : Point Int) : List Iteration :=
  let minx := min v1.x (min v2.x v3.x)
  let maxx := max v1.x (max v2.x v3.x)
  let miny := min v1.y (min v2.y v3.y)
  let maxy := max v1.y (max v2.y v3.y)
  let miny := max miny 0
  let maxy := min maxy (frame_h - 1)
  let minx := max minx 0
  let maxx := min maxx (frame_w - 1)
  fillRows (edges v1 v2 v3) minx maxx (turns miny maxy) miny

/-- The test for drawing a pixel. -/
def Iteration.inside (i : Iteration) : Bool := i.e1 ≥ 0 ∧ i.e2 ≥ 0 ∧ i.e3 ≥ 0

/-- The pixels that pass the test. -/
def drawn (frame_w frame_h : Int) (v1 v2 v3 : Point Int) : List (Point Int) :=
  ((studrenDrawTriangle frame_w frame_h v1 v2 v3).filter Iteration.inside).map fun i => ⟨i.x, i.y⟩

/-! ### The loops -/

/-- The values of the edge functions in a turn of the loops. -/
structure Iteration.Exact (t : Edges) (i : Iteration) : Prop where
  e1 : i.e1 = t.e1.eval i.x i.y
  e2 : i.e2 = t.e2.eval i.x i.y
  e3 : i.e3 = t.e3.eval i.x i.y

/-- A pixel to the right is reached by adding `a`. -/
theorem Edge.eval_succ (e : Edge) (x y : Int) : e.eval (x + 1) y = e.eval x y + e.a := by
  simp only [eval]; ring

theorem mem_fillRow : i ∈ fillRow t y n x (t.e1.eval x y) (t.e2.eval x y) (t.e3.eval x y) ↔
    i.Exact t ∧ i.y = y ∧ x ≤ i.x ∧ i.x < x + n := by
  induction n generalizing x with
  | zero =>
    simp only [fillRow, List.not_mem_nil, false_iff]
    rintro ⟨-, -, hle, hlt⟩
    omega
  | succ n ih =>
    rw [fillRow, List.mem_cons, ← Edge.eval_succ, ← Edge.eval_succ, ← Edge.eval_succ, ih]
    constructor
    · rintro (rfl | ⟨hexact, hy, hle, hlt⟩)
      · exact ⟨⟨rfl, rfl, rfl⟩, rfl, le_rfl, by simp⟩
      · exact ⟨hexact, hy, by omega, by push_cast; omega⟩
    · rintro ⟨hexact, rfl, hle, hlt⟩
      by_cases hx : i.x = x
      · obtain ⟨ix, iy, i1, i2, i3⟩ := i
        obtain ⟨h1, h2, h3⟩ := hexact
        dsimp only at hx h1 h2 h3
        subst hx h1 h2 h3
        exact .inl rfl
      · exact .inr ⟨hexact, rfl, by omega, by push_cast at hlt; omega⟩

theorem mem_fillRows : i ∈ fillRows t minx maxx n y ↔
    i.Exact t ∧ minx ≤ i.x ∧ i.x ≤ maxx ∧ y ≤ i.y ∧ i.y < y + n := by
  induction n generalizing y with
  | zero =>
    simp only [fillRows, List.not_mem_nil, false_iff]
    rintro ⟨-, -, -, hle, hlt⟩
    omega
  | succ n ih =>
    have hrow : i ∈ fillRow t y (turns minx maxx) minx (t.e1.a * minx + t.e1.b * y + t.e1.c)
        (t.e2.a * minx + t.e2.b * y + t.e2.c) (t.e3.a * minx + t.e3.b * y + t.e3.c) ↔
        i.Exact t ∧ i.y = y ∧ minx ≤ i.x ∧ i.x < minx + turns minx maxx := mem_fillRow
    rw [fillRows, List.mem_append, hrow, ih, turns]
    constructor
    · rintro (⟨hexact, rfl, hle, hlt⟩ | ⟨hexact, hx, hx', hle, hlt⟩)
      · exact ⟨hexact, hle, by omega, le_rfl, by omega⟩
      · exact ⟨hexact, hx, hx', by omega, by omega⟩
    · rintro ⟨hexact, hx, hx', hle, hlt⟩
      by_cases hy : i.y = y
      · exact .inl ⟨hexact, hy, hx, by omega⟩
      · exact .inr ⟨hexact, hx, hx', by omega, by omega⟩

/-- A pixel of the window. -/
def InWindow (frame_w frame_h : Int) (z : Point Int) : Prop :=
  0 ≤ z.x ∧ z.x < frame_w ∧ 0 ≤ z.y ∧ z.y < frame_h

/-- The loops visit the pixels of the window that are in the box of the triangle, and keep the edge
functions exact. -/
theorem mem_studrenDrawTriangle : i ∈ studrenDrawTriangle w h v1 v2 v3 ↔
    i.Exact (edges v1 v2 v3) ∧ InWindow w h ⟨i.x, i.y⟩ ∧
      (min v1.x (min v2.x v3.x) ≤ i.x ∧ i.x ≤ max v1.x (max v2.x v3.x)) ∧
      (min v1.y (min v2.y v3.y) ≤ i.y ∧ i.y ≤ max v1.y (max v2.y v3.y)) := by
  rw [studrenDrawTriangle, mem_fillRows, turns, InWindow]
  dsimp only
  generalize min v1.x (min v2.x v3.x) = minx
  generalize max v1.x (max v2.x v3.x) = maxx
  generalize min v1.y (min v2.y v3.y) = miny
  generalize max v1.y (max v2.y v3.y) = maxy
  constructor
  · rintro ⟨hexact, hx, hx', hy, hy'⟩
    exact ⟨hexact, by omega, by omega, by omega⟩
  · rintro ⟨hexact, hwin, hx, hy⟩
    exact ⟨hexact, by omega, by omega, by omega, by omega⟩

/-! ### The edge rule -/

/-- The pixel passes the test of the triangle. -/
def Inside (v1 v2 v3 z : Point Int) : Prop :=
  0 ≤ (edges v1 v2 v3).e1.eval z.x z.y ∧ 0 ≤ (edges v1 v2 v3).e2.eval z.x z.y ∧
    0 ≤ (edges v1 v2 v3).e3.eval z.x z.y

/-- The pixel is to the left of the edge from `p` to `q`, or on it where the edge owns its
pixels. -/
def Left (p q z : Point Int) : Prop := 0 ≤ (edge p q).eval z.x z.y

theorem left_iff : Left p q z ↔
    0 ≤ p.orient q z - if (p.y = q.y ∧ q.x > p.x) ∨ q.y < p.y then 1 else 0 := by
  have heval : (edge p q).eval z.x z.y =
      p.orient q z - if (p.y = q.y ∧ q.x > p.x) ∨ q.y < p.y then 1 else 0 := by
    simp only [edge, Edge.eval, Point.orient]; ring
  rw [Left, heval]

theorem Left.orient_nonneg (h : Left p q z) : 0 ≤ p.orient q z := by
  rw [left_iff] at h
  split at h <;> omega

theorem left_of_orient_pos (h : 0 < p.orient q z) : Left p q z := by
  rw [left_iff]
  split <;> omega

/-- An edge walked in the opposite direction owns the pixels that it does not own. -/
theorem left_swap (hpq : p ≠ q) : Left q p z ↔ ¬ Left p q z := by
  have hne : p.x = q.x → p.y ≠ q.y := fun hx hy => hpq (Point.ext hx hy)
  rw [left_iff, left_iff, Point.orient_swap]
  split <;> split <;> omega

/-- The pixel is inside the counterclockwise triangle `p q r`. -/
def Covers (p q r z : Point Int) : Prop := Left p q z ∧ Left q r z ∧ Left r p z

theorem Covers.rotate (h : Covers p q r z) : Covers q r p z := ⟨h.2.1, h.2.2, h.1⟩

theorem edges_of_nonneg (h : 0 ≤ v1.orient v2 v3) :
    edges v1 v2 v3 = ⟨edge v1 v2, edge v2 v3, edge v3 v1⟩ := by
  have : ¬ (v2.x - v1.x) * (v3.y - v1.y) - (v2.y - v1.y) * (v3.x - v1.x) < 0 := not_lt.mpr h
  simp only [edges, orientate, if_neg this]

theorem edges_of_neg (h : v1.orient v2 v3 < 0) :
    edges v1 v2 v3 = ⟨edge v1 v3, edge v3 v2, edge v2 v1⟩ := by
  have : (v2.x - v1.x) * (v3.y - v1.y) - (v2.y - v1.y) * (v3.x - v1.x) < 0 := h
  simp only [edges, orientate, if_pos this]

/-- The six orders of three corners. -/
theorem perm_three {a b e p q r : Point Int} (h : [a, b, e].Perm [p, q, r]) :
    (a = p ∧ b = q ∧ e = r) ∨ (a = q ∧ b = p ∧ e = r) ∨ (a = q ∧ b = r ∧ e = p) ∨
      (a = p ∧ b = r ∧ e = q) ∨ (a = r ∧ b = p ∧ e = q) ∨ (a = r ∧ b = q ∧ e = p) := by
  have hmem : [a, b, e] ∈ [[p, q, r], [q, p, r], [q, r, p], [p, r, q], [r, p, q], [r, q, p]] :=
    List.mem_permutations'.mpr h
  simpa using hmem

theorem inside_iff_of_nonneg (h : 0 ≤ v1.orient v2 v3) :
    Inside v1 v2 v3 z ↔ Covers v1 v2 v3 z := by
  rw [Inside, edges_of_nonneg h]
  rfl

theorem inside_iff_of_neg (h : v1.orient v2 v3 < 0) : Inside v1 v2 v3 z ↔ Covers v1 v3 v2 z := by
  rw [Inside, edges_of_neg h]
  rfl

theorem covers_rotate : Covers q r p z ↔ Covers p q r z :=
  ⟨fun h => h.rotate.rotate, Covers.rotate⟩

/-- The order in which the corners are passed does not matter. -/
theorem inside_iff (h : [v1, v2, v3].Perm [p, q, r]) (hr : 0 < p.orient q r) :
    Inside v1 v2 v3 z ↔ Covers p q r z := by
  rcases perm_three h with ⟨rfl, rfl, rfl⟩ | ⟨rfl, rfl, rfl⟩ | ⟨rfl, rfl, rfl⟩ | ⟨rfl, rfl, rfl⟩ |
    ⟨rfl, rfl, rfl⟩ | ⟨rfl, rfl, rfl⟩
  · exact inside_iff_of_nonneg hr.le
  · have := Point.orient_swap v2 v1 v3
    rw [inside_iff_of_neg (by omega), covers_rotate]
  · have := Point.orient_rotate v3 v1 v2
    rw [inside_iff_of_nonneg (by omega), covers_rotate]
  · have := Point.orient_flip v1 v3 v2
    rw [inside_iff_of_neg (by omega)]
  · have := Point.orient_rotate v1 v2 v3
    rw [inside_iff_of_nonneg (by omega), ← covers_rotate]
  · have hflip := Point.orient_flip v3 v2 v1
    have hrotate := Point.orient_rotate v3 v1 v2
    rw [inside_iff_of_neg (by omega), ← covers_rotate]

theorem Covers.orient_nonneg (h : Covers p q r z) :
    0 ≤ p.orient q z ∧ 0 ≤ q.orient r z ∧ 0 ≤ r.orient p z :=
  ⟨h.1.orient_nonneg, h.2.1.orient_nonneg, h.2.2.orient_nonneg⟩

/-- A covered pixel is in the box of the triangle. -/
theorem Covers.mem_box (h : Covers p q r z) (hr : 0 < p.orient q r) :
    (min p.x (min q.x r.x) ≤ z.x ∧ z.x ≤ max p.x (max q.x r.x)) ∧
      (min p.y (min q.y r.y) ≤ z.y ∧ z.y ≤ max p.y (max q.y r.y)) := by
  obtain ⟨hpq, hqr, hrp⟩ := h.orient_nonneg
  exact ⟨Point.mem_box hr hpq hqr hrp Point.x (Point.orient_mul_x p q r z),
    Point.mem_box hr hpq hqr hrp Point.y (Point.orient_mul_y p q r z)⟩

theorem Inside.mem_box (h : Inside v1 v2 v3 z) (hv : v1.orient v2 v3 ≠ 0) :
    (min v1.x (min v2.x v3.x) ≤ z.x ∧ z.x ≤ max v1.x (max v2.x v3.x)) ∧
      (min v1.y (min v2.y v3.y) ≤ z.y ∧ z.y ≤ max v1.y (max v2.y v3.y)) := by
  rcases lt_or_gt_of_ne hv with hneg | hpos
  · have hflip := Point.orient_flip v1 v2 v3
    have hbox := ((inside_iff_of_neg hneg).mp h).mem_box (by omega)
    rwa [min_comm v3.x, max_comm v3.x, min_comm v3.y, max_comm v3.y] at hbox
  · exact ((inside_iff_of_nonneg hpos.le).mp h).mem_box hpos

/-- The pixels that are drawn are those of the window that pass the test. -/
theorem mem_drawn_iff_inside (hv : v1.orient v2 v3 ≠ 0) :
    z ∈ drawn w h v1 v2 v3 ↔ InWindow w h z ∧ Inside v1 v2 v3 z := by
  rw [drawn, List.mem_map]
  constructor
  · rintro ⟨i, hi, rfl⟩
    obtain ⟨hi, hin⟩ := List.mem_filter.mp hi
    obtain ⟨⟨h1, h2, h3⟩, hwin, -⟩ := mem_studrenDrawTriangle.mp hi
    simp only [Iteration.inside, decide_eq_true_eq] at hin
    exact ⟨hwin, h1 ▸ hin.1, h2 ▸ hin.2.1, h3 ▸ hin.2.2⟩
  · rintro ⟨hwin, hin⟩
    refine ⟨⟨z.x, z.y, (edges v1 v2 v3).e1.eval z.x z.y, (edges v1 v2 v3).e2.eval z.x z.y,
      (edges v1 v2 v3).e3.eval z.x z.y⟩, List.mem_filter.mpr ⟨?_, decide_eq_true hin⟩, rfl⟩
    exact mem_studrenDrawTriangle.mpr ⟨⟨rfl, rfl, rfl⟩, hwin, hin.mem_box hv⟩

theorem orient_ne_zero_of_perm {p q r v1 v2 v3 : Point Int} (h : [v1, v2, v3].Perm [p, q, r])
    (hr : 0 < p.orient q r) :
    v1.orient v2 v3 ≠ 0 := by
  have hswap := Point.orient_swap p q r
  have hflip := Point.orient_flip p q r
  have hrotate := Point.orient_rotate p q r
  have hrotate' := Point.orient_rotate r p q
  have hflip' := Point.orient_flip r p q
  rcases perm_three h with ⟨rfl, rfl, rfl⟩ | ⟨rfl, rfl, rfl⟩ | ⟨rfl, rfl, rfl⟩ | ⟨rfl, rfl, rfl⟩ |
    ⟨rfl, rfl, rfl⟩ | ⟨rfl, rfl, rfl⟩ <;> omega

theorem mem_drawn (hv : [v1, v2, v3].Perm [p, q, r]) (hr : 0 < p.orient q r) :
    z ∈ drawn w h v1 v2 v3 ↔ InWindow w h z ∧ Covers p q r z := by
  rw [mem_drawn_iff_inside (orient_ne_zero_of_perm hv hr), inside_iff hv hr]

section
variable {p q r s v1 v2 v3 u1 u2 u3 z : Point Int}

/-- Triangles on the two sides of `p q` share no pixel. -/
theorem covers_disjoint (hr : 0 < p.orient q r) (h : Covers p q r z) (h' : Covers q p s z) :
    False := by
  have hpq : p ≠ q := by rintro rfl; simp [Point.orient] at hr
  exact (left_swap hpq).mp h'.1 h.1

/-- A pixel between `p` and `q` belongs to the triangle that owns the edge. -/
theorem covers_of_openSegment (hr : 0 < p.orient q r) (hz : p.OpenSegment q z) :
    Covers p q r z ↔ Left p q z := by
  obtain ⟨hqr, hrp⟩ := hz.orient_pos hr
  exact ⟨fun h => h.1, fun h => ⟨h, left_of_orient_pos hqr, left_of_orient_pos hrp⟩⟩

/-- A pixel strictly inside a triangle is covered. -/
theorem covers_of_interior (hr : 0 < p.orient q r) (hz : p.Interior q r z) : Covers p q r z := by
  have hqr : 0 < q.orient r p := by rwa [Point.orient_rotate]
  have hrp : 0 < r.orient p q := by rwa [Point.orient_rotate]
  exact ⟨left_of_orient_pos (hz.orient_pos hr), left_of_orient_pos (hz.rotate.orient_pos hqr),
    left_of_orient_pos (hz.rotate.rotate.orient_pos hrp)⟩

/-- Two triangles `v1 v2 v3` and `u1 u2 u3` with the corners `p q r` and `p q s`, drawn in a
window. -/
structure EdgeRule (w h : Int) (p q r s v1 v2 v3 u1 u2 u3 : Point Int) : Prop where
  disjoint : ∀ z, ¬ (Inside v1 v2 v3 z ∧ Inside u1 u2 u3 z)
  /-- The pixels of the shared edge are drawn once. -/
  shared : ∀ z, InWindow w h z → p.OpenSegment q z →
    Xor (z ∈ drawn w h v1 v2 v3) (z ∈ drawn w h u1 u2 u3)
  left : ∀ z, InWindow w h z → p.Interior q r z → z ∈ drawn w h v1 v2 v3
  right : ∀ z, InWindow w h z → p.Interior q s z → z ∈ drawn w h u1 u2 u3
  left_exact : ∀ i ∈ studrenDrawTriangle w h v1 v2 v3, i.Exact (edges v1 v2 v3)
  right_exact : ∀ i ∈ studrenDrawTriangle w h u1 u2 u3, i.Exact (edges u1 u2 u3)

theorem EdgeRule.swap (h : EdgeRule w h' p q r s v1 v2 v3 u1 u2 u3) :
    EdgeRule w h' q p r s v1 v2 v3 u1 u2 u3 where
  disjoint := h.disjoint
  shared z hwin hz := h.shared z hwin hz.symm
  left z hwin hz := h.left z hwin hz.swap
  right z hwin hz := h.right z hwin hz.swap
  left_exact := h.left_exact
  right_exact := h.right_exact

theorem edgeRule_of_pos (w h : Int) (hv : [v1, v2, v3].Perm [p, q, r])
    (hu : [u1, u2, u3].Perm [p, q, s]) (hr : 0 < p.orient q r) (hs : p.orient q s < 0) :
    EdgeRule w h p q r s v1 v2 v3 u1 u2 u3 := by
  have hswap := Point.orient_swap p q s
  have hs' : 0 < q.orient p s := by omega
  have hu' : [u1, u2, u3].Perm [q, p, s] := hu.trans (.swap ..)
  have hpq : p ≠ q := by rintro rfl; simp [Point.orient] at hr
  constructor
  case disjoint =>
    rintro z ⟨hz, hz'⟩
    exact covers_disjoint hr ((inside_iff hv hr).mp hz) ((inside_iff hu' hs').mp hz')
  case shared =>
    intro z hwin hz
    rw [mem_drawn hv hr, mem_drawn hu' hs', covers_of_openSegment hr hz,
      covers_of_openSegment hs' hz.symm, left_swap hpq]
    by_cases hleft : Left p q z
    · exact .inl ⟨⟨hwin, hleft⟩, fun hn => hn.2 hleft⟩
    · exact .inr ⟨⟨hwin, hleft⟩, fun hn => hleft hn.2⟩
  case left => exact fun z hwin hz => (mem_drawn hv hr).mpr ⟨hwin, covers_of_interior hr hz⟩
  case right => exact fun z hwin hz => (mem_drawn hu' hs').mpr ⟨hwin, covers_of_interior hs' hz.swap⟩
  case left_exact => exact fun i hi => (mem_studrenDrawTriangle.mp hi).1
  case right_exact => exact fun i hi => (mem_studrenDrawTriangle.mp hi).1

/-- Triangles on the two sides of a shared edge: no pixel is drawn twice and none is left out. -/
theorem edgeRule (w h : Int) (hv : [v1, v2, v3].Perm [p, q, r])
    (hu : [u1, u2, u3].Perm [p, q, s])
    (hside : 0 < p.orient q r ∧ p.orient q s < 0 ∨ p.orient q r < 0 ∧ 0 < p.orient q s) :
    EdgeRule w h p q r s v1 v2 v3 u1 u2 u3 := by
  rcases hside with ⟨hr, hs⟩ | ⟨hr, hs⟩
  · exact edgeRule_of_pos w h hv hu hr hs
  · have hr' := Point.orient_swap p q r
    have hs' := Point.orient_swap p q s
    exact (edgeRule_of_pos w h (hv.trans (.swap ..)) (hu.trans (.swap ..)) (by omega)
      (by omega)).swap

/-- Two triangles with a slanted edge, one of them passed clockwise. -/
theorem edgeRule_slanted : EdgeRule 8 8 ⟨1, 1⟩ ⟨5, 3⟩ ⟨1, 6⟩ ⟨6, 0⟩
    ⟨1, 6⟩ ⟨5, 3⟩ ⟨1, 1⟩ ⟨5, 3⟩ ⟨6, 0⟩ ⟨1, 1⟩ :=
  edgeRule 8 8 (by decide) (by decide) (by decide)

end

end StudentRenderer
