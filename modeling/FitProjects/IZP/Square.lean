import FitProjects.IZP.Bitmap

/-! # Squares in a bitmap

`find_square` of `IZP/proj3.c`. At a corner whose cell is `'1'` it tries the sides from `max + 1` on
and grows a square whose upper and left edges it checks only once (`sizeLoop_spec`). -/

namespace Bitmap

/-- What `find_square` has found. -/
structure SquareState where
  max : Nat
  out : Coordinates

/-- The corners of a square with side `n`. -/
def corners (j i n : Nat) : Coordinates := ⟨j, i, j + n - 1, i + n - 1⟩

/-- The loops along an edge: whether one of `k` cells from `x` on is `'0'`. -/
def zeroIn (read : Nat → Option Char) (x : Nat) : Nat → Option Bool
  | 0 => some false
  | k + 1 => do
    let c ← read x
    if c = '0' then return true
    zeroIn read (x + 1) k

/-- The loops that `check` turns off. -/
def zeroInIf (check : Bool) (read : Nat → Option Char) (x k : Nat) : Option Bool :=
  if check then zeroIn read x k else some false

/-- The loops along the lower and the right edge. -/
def zeroBelow (bitmap : Bitmap) (j i n : Nat) : Option Bool := do
  let zero ← zeroIn (bitmap.getcolor · (j + n - 1)) (i + 1) (n - 1)
  if zero then return true
  zeroIn (bitmap.getcolor (i + n - 1) ·) (j + 1) (n - 2)

/-- The loop over the sides `n`: what is added to `i`, and what has been found. -/
def sizeLoop (bitmap : Bitmap) (j i n : Nat) (check : Bool) (s : SquareState) :
    Option (Nat × SquareState) :=
  if n ≤ bitmap.cols - i ∧ n ≤ bitmap.rows - j then do
    let c ← bitmap.getcolor (n + i - 1) j
    if c = '0' then return (n - 1, s)
    let c ← bitmap.getcolor i (n + j - 1)
    if c = '0' then return (0, s)
    let zero ← zeroInIf check (bitmap.getcolor · j) (i + 1) (n - 2)
    if zero then return (n - 1, s)
    let zero ← zeroInIf check (bitmap.getcolor i ·) (j + 1) (n - 2)
    if zero then return (0, s)
    let zero ← bitmap.zeroBelow j i n
    sizeLoop bitmap j i (n + 1) false
      (if !zero && s.max < n then ⟨n, corners j i n⟩ else s)
  else some (0, s)
termination_by bitmap.cols + 1 - n
decreasing_by omega

/-- The body of the loop over the columns: what is added to `i`, and what has been found. -/
def squareCell (bitmap : Bitmap) (j i : Nat) (s : SquareState) : Option (Nat × SquareState) := do
  let c ← bitmap.getcolor i j
  if c = '1' then bitmap.sizeLoop j i (s.max + 1) true s else some (0, s)

variable {bitmap : Bitmap} {d i j k m max n x : Nat} {check : Bool} {s : SquareState}

/-! ### Squares -/

/-- The border of the square with side `n` and upper left corner in row `j` and column `i` consists
of ones. -/
structure IsSquare (bitmap : Bitmap) (j i n : Nat) : Prop where
  two_le : 2 ≤ n
  top : ∀ k < n, bitmap.One j (i + k)
  bottom : ∀ k < n, bitmap.One (j + n - 1) (i + k)
  left : ∀ k < n, bitmap.One (j + k) i
  right : ∀ k < n, bitmap.One (j + k) (i + n - 1)

/-- A square lies inside. -/
theorem IsSquare.le (h : bitmap.IsSquare j i n) : i + n ≤ bitmap.cols ∧ j + n ≤ bitmap.rows := by
  have hn := h.two_le
  have htop := (h.top (n - 1) (by omega)).lt
  have hleft := (h.left (n - 1) (by omega)).lt
  omega

/-- The first `n` cells of the upper and of the left edge are ones. -/
def Edges (bitmap : Bitmap) (j i n : Nat) : Prop :=
  ∀ k < n, bitmap.One j (i + k) ∧ bitmap.One (j + k) i

/-- There are `d` ones from column `i` on, and as many down from the first of them, and the next cell
of the row is a zero. -/
structure RunEnds (bitmap : Bitmap) (j i d : Nat) : Prop where
  edges : bitmap.Edges j i d
  zero : ¬bitmap.One j (i + d)
  inside : i + d < bitmap.cols ∧ j + d < bitmap.rows

/-- Both ends of the upper and of the left edge with side `d + 1` are ones, and there is a zero inside
the upper edge. -/
structure AcrossZero (bitmap : Bitmap) (j i d : Nat) : Prop where
  corner : bitmap.One j i
  right : bitmap.One j (i + d)
  left : bitmap.One (j + d) i
  zero : ∃ z, i < z ∧ z < i + d ∧ ¬bitmap.One j z

/-- What is added to `i` at a corner where the sides up to `max` are not tried. -/
inductive Jump (bitmap : Bitmap) (j i max : Nat) : Nat → Prop
  | stay : Jump bitmap j i max 0
  | toZero : ¬bitmap.One j (i + max) → Jump bitmap j i max max
  | run {d : Nat} : bitmap.RunEnds j i d → Jump bitmap j i max d
  | across : bitmap.AcrossZero j i max → Jump bitmap j i max max

theorem IsSquare.edges (h : bitmap.IsSquare j i n) : bitmap.Edges j i n :=
  fun k hk => ⟨h.top k hk, h.left k hk⟩

/-! ### One corner -/

theorem zeroIn_spec (x k : Nat) {read : Nat → Option Char} {one : Nat → Prop}
    (hread : ∀ y, x ≤ y → y < x + k → read y = some '0' ∧ ¬one y ∨ read y = some '1' ∧ one y) :
    (zeroIn read x k = some true ∧ ∃ y, x ≤ y ∧ y < x + k ∧ ¬one y) ∨
      zeroIn read x k = some false ∧ ∀ y, x ≤ y → y < x + k → one y := by
  induction k generalizing x with
  | zero => exact .inr ⟨rfl, fun y hle hlt => by omega⟩
  | succ k ih =>
    rcases hread x (Nat.le_refl x) (by omega) with ⟨hzero, hone⟩ | ⟨hx, hone⟩
    · exact .inl ⟨by simp [zeroIn, hzero], x, Nat.le_refl x, by omega, hone⟩
    · have hstep : zeroIn read x (k + 1) = zeroIn read (x + 1) k := by simp [zeroIn, hx]
      rw [hstep]
      obtain ⟨htrue, y, hle, hlt, hy⟩ | ⟨hfalse, hall⟩ :=
        ih (x + 1) fun y hle hlt => hread y (by omega) (by omega)
      · exact .inl ⟨htrue, y, by omega, by omega, hy⟩
      · refine .inr ⟨hfalse, fun y hle hlt => ?_⟩
        rcases Nat.eq_or_lt_of_le hle with rfl | hlt'
        · exact hone
        · exact hall y hlt' (by omega)

theorem Edges.succ (h : bitmap.Edges j i n) (hright : bitmap.One j (n + i))
    (hleft : bitmap.One (n + j) i) : bitmap.Edges j i (n + 1) := by
  intro k hk
  rcases Nat.eq_or_lt_of_le (Nat.le_of_lt_succ hk) with rfl | hk
  · exact ⟨Nat.add_comm k i ▸ hright, Nat.add_comm k j ▸ hleft⟩
  · exact h k hk

/-- An edge that is read the first time, or is known up to the last cell. -/
theorem zeroInIf_spec (check : Bool) (n : Nat) {read : Nat → Option Char} {one : Nat → Prop}
    (hread : ∀ y < x + n, x ≤ y → read y = some '0' ∧ ¬one y ∨ read y = some '1' ∧ one y)
    (hx : one x) (hknown : check = false → ∀ k < n - 1, one (x + k)) :
    (zeroInIf check read (x + 1) (n - 2) = some true ∧ check = true ∧
      ∃ y, x < y ∧ y < x + (n - 1) ∧ ¬one y) ∨
    zeroInIf check read (x + 1) (n - 2) = some false ∧
      ∀ k < n - 1, one (x + k) := by
  cases check with
  | false => exact .inr ⟨rfl, hknown rfl⟩
  | true =>
    obtain ⟨htrue, y, hle, hlt, hy⟩ | ⟨hfalse, hall⟩ := zeroIn_spec (x := x + 1) (k := n - 2)
      fun y hle hlt => hread y (by omega) (by omega)
    · exact .inl ⟨htrue, rfl, y, hle, by omega, hy⟩
    · refine .inr ⟨hfalse, fun k hk => ?_⟩
      cases k with
      | zero => exact hx
      | succ k => exact hall (x + (k + 1)) (by omega) (by omega)

/-- What the loop over the sides makes of a corner: it finds the largest square at that corner, or
there is no square with side `n` or more. -/
def Grown (bitmap : Bitmap) (j i n : Nat) (s s' : SquareState) : Prop :=
  (s' = s ∧ ∀ m, n ≤ m → ¬bitmap.IsSquare j i m) ∨
    ∃ m, n ≤ m ∧ bitmap.IsSquare j i m ∧ (∀ m', bitmap.IsSquare j i m' → m' ≤ m) ∧
      s' = ⟨m, corners j i m⟩

/-- A cell of the upper or of the left edge that is `'0'`. -/
theorem Grown.stop (h : ∀ m, n ≤ m → ¬bitmap.Edges j i m) : bitmap.Grown j i n s s :=
  .inl ⟨rfl, fun m hm hsquare => h m hm hsquare.edges⟩

/-- The upper and the left edge of side `n`, as the loop reads them. -/
theorem edges_cases (hn : 2 ≤ n) (hone : bitmap.One j i)
    (hcols : n ≤ bitmap.cols - i) (hrows : n ≤ bitmap.rows - j)
    (hedges : check = false → bitmap.Edges j i (n - 1)) :
    (∃ d, sizeLoop bitmap j i n check s = some (d, s) ∧ (∀ m, n ≤ m → ¬bitmap.Edges j i m) ∧
      (d = 0 ∨ d = n - 1 ∧ (¬bitmap.One j (i + (n - 1)) ∨
        check = true ∧ bitmap.AcrossZero j i (n - 1)))) ∨
      bitmap.Edges j i n ∧ sizeLoop bitmap j i n check s = (do
        let zero ← bitmap.zeroBelow j i n
        sizeLoop bitmap j i (n + 1) false
          (if !zero && s.max < n then ⟨n, corners j i n⟩ else s)) := by
  rw [sizeLoop, if_pos ⟨hcols, hrows⟩]
  obtain ⟨hread, hzero⟩ | ⟨hread, hright⟩ :=
    getcolor_cases (show n + i - 1 < bitmap.cols by omega) (show j < bitmap.rows by omega)
  · rw [show n + i - 1 = i + (n - 1) by omega] at hread hzero
    refine .inl ⟨n - 1, by simp [show n + i - 1 = i + (n - 1) by omega, hread],
      fun m hm h => hzero (h (n - 1) (by omega)).1, .inr ⟨rfl, .inl hzero⟩⟩
  obtain ⟨hread', hzero⟩ | ⟨hread', hleft⟩ :=
    getcolor_cases (show i < bitmap.cols by omega) (show n + j - 1 < bitmap.rows by omega)
  · refine .inl ⟨0, by simp [hread, hread'], fun m hm h => hzero ?_, .inl rfl⟩
    have hleft := (h (n - 1) (by omega)).2
    rwa [show j + (n - 1) = n + j - 1 by omega] at hleft
  obtain ⟨htop, hcheck, z, hle, hlt, hzero⟩ | ⟨htop, htops⟩ := zeroInIf_spec check n
    (fun y hlt hle => getcolor_cases (show y < bitmap.cols by omega) (show j < bitmap.rows by omega))
    hone
    fun hcheck k hk => (hedges hcheck k hk).1
  · refine .inl ⟨n - 1, by simp [hread, hread', htop], fun m hm h => hzero ?_,
      .inr ⟨rfl, .inr ⟨hcheck, hone, ?_, ?_, z, hle, hlt, hzero⟩⟩⟩
    · have htop := (h (z - i) (by omega)).1
      rwa [Nat.add_sub_cancel' (Nat.le_of_lt hle)] at htop
    · rwa [show i + (n - 1) = n + i - 1 by omega]
    · rwa [show j + (n - 1) = n + j - 1 by omega]
  obtain ⟨hside, -, z, hle, hlt, hzero⟩ | ⟨hside, hsides⟩ := zeroInIf_spec check n
    (fun y hlt hle => getcolor_cases (show i < bitmap.cols by omega) (show y < bitmap.rows by omega))
    hone
    fun hcheck k hk => (hedges hcheck k hk).2
  · refine .inl ⟨0, by simp [hread, hread', htop, hside], fun m hm h => hzero ?_, .inl rfl⟩
    have hleft := (h (z - j) (by omega)).2
    rwa [Nat.add_sub_cancel' (Nat.le_of_lt hle)] at hleft
  refine .inr ⟨?_, by simp [hread, hread', htop, hside]⟩
  have hknown : bitmap.Edges j i (n - 1) := fun k hk => ⟨htops k hk, hsides k hk⟩
  obtain ⟨n, rfl⟩ : ∃ m, n = m + 1 := ⟨n - 1, by omega⟩
  rw [Nat.add_right_comm] at hright hleft
  exact hknown.succ hright hleft

/-- The lower and the right edge of side `n`. -/
theorem isSquare_cases (hn : 2 ≤ n) (hcols : n ≤ bitmap.cols - i) (hrows : n ≤ bitmap.rows - j)
    (hedges : bitmap.Edges j i n) :
    ∃ zero, bitmap.zeroBelow j i n = some zero ∧ (zero = false ↔ bitmap.IsSquare j i n) := by
  obtain ⟨hbottom, y, hle, hlt, hzero⟩ | ⟨hbottom, hbottoms⟩ :=
    zeroIn_spec (i + 1) (n - 1) fun y hle hlt =>
      getcolor_cases (show y < bitmap.cols by omega) (show j + n - 1 < bitmap.rows by omega)
  · refine ⟨true, by simp [zeroBelow, hbottom], by simp, fun h => ?_⟩
    refine absurd (h.bottom (y - i) (by omega)) ?_
    rwa [Nat.add_sub_cancel' (by omega)]
  obtain ⟨hright, y, hle, hlt, hzero⟩ | ⟨hright, hrights⟩ :=
    zeroIn_spec (j + 1) (n - 2) fun y hle hlt =>
      getcolor_cases (show i + n - 1 < bitmap.cols by omega) (show y < bitmap.rows by omega)
  · refine ⟨true, by simp [zeroBelow, hbottom, hright], by simp, fun h => ?_⟩
    refine absurd (h.right (y - j) (by omega)) ?_
    rwa [Nat.add_sub_cancel' (by omega)]
  · refine ⟨false, by simp [zeroBelow, hbottom, hright], fun _ => ?_, fun _ => rfl⟩
    have hlast : ∀ k < n, bitmap.One (j + n - 1) (i + k) := by
      intro k hk
      cases k with
      | zero =>
        have hleft := (hedges (n - 1) (by omega)).2
        rwa [← Nat.add_sub_assoc (by omega)] at hleft
      | succ k => exact hbottoms (i + (k + 1)) (by omega) (by omega)
    refine ⟨hn, fun k hk => (hedges k hk).1, hlast, fun k hk => (hedges k hk).2, fun k hk => ?_⟩
    obtain hk | rfl : k < n - 1 ∨ k = n - 1 := by omega
    · cases k with
      | zero =>
        have htop := (hedges (n - 1) (by omega)).1
        rwa [← Nat.add_sub_assoc (by omega)] at htop
      | succ k => exact hrights (j + (k + 1)) (by omega) (by omega)
    · have hcorner := hlast (n - 1) (by omega)
      rwa [show i + (n - 1) = i + n - 1 by omega, show j + n - 1 = j + (n - 1) by omega] at hcorner

/-- The loop over the sides finds the largest square of a corner, and jumps as far as `Jump` says. -/
theorem sizeLoop_spec (hn : 2 ≤ n) (hone : bitmap.One j i) (hmax : s.max < n)
    (hfirst : check = true → n = max + 1) (hedges : check = false → bitmap.Edges j i (n - 1)) :
    ∃ d s', sizeLoop bitmap j i n check s = some (d, s') ∧ bitmap.Grown j i n s s' ∧
      bitmap.Jump j i max d := by
  induction hk : bitmap.cols + 1 - n using Nat.strongRecOn generalizing n check s with
  | ind k ih =>
    by_cases hloop : n ≤ bitmap.cols - i ∧ n ≤ bitmap.rows - j
    · obtain ⟨d, hstop, hnone, hjump⟩ | ⟨hedges, hnext⟩ :=
        edges_cases (s := s) hn hone hloop.1 hloop.2 hedges
      · refine ⟨d, s, hstop, .stop hnone, ?_⟩
        rcases hjump with rfl | ⟨rfl, hzero | ⟨hcheck, hacross⟩⟩
        · exact .stay
        · cases check with
          | true =>
            rw [hfirst rfl, Nat.add_sub_cancel] at hzero ⊢
            exact .toZero hzero
          | false => exact .run ⟨hedges rfl, hzero, by omega, by omega⟩
        · rw [hfirst hcheck, Nat.add_sub_cancel] at hacross ⊢
          exact .across hacross
      obtain ⟨zero, hbelow, hiff⟩ := isSquare_cases hn hloop.1 hloop.2 hedges
      rw [hnext, hbelow]
      cases zero with
      | true =>
        obtain ⟨d, s', hs', hgrown, hjump⟩ := ih _ (by omega) (show 2 ≤ n + 1 by omega)
          (show s.max < n + 1 by omega) (nofun : false = true → _)
          (fun _ : false = false => hedges) rfl
        refine ⟨d, s', by simpa using hs', ?_, hjump⟩
        rcases hgrown with ⟨hs, hnone⟩ | ⟨m, hm, hsquare⟩
        · refine .inl ⟨hs, fun m hm hsquare => ?_⟩
          rcases Nat.eq_or_lt_of_le hm with rfl | hm
          · exact absurd (hiff.mpr hsquare) (by simp)
          · exact hnone m hm hsquare
        · exact .inr ⟨m, Nat.le_of_lt hm, hsquare⟩
      | false =>
        obtain ⟨d, s', hs', hgrown, hjump⟩ := ih _ (by omega) (show 2 ≤ n + 1 by omega)
          (show (⟨n, corners j i n⟩ : SquareState).max < n + 1 from Nat.lt_succ_self n)
          (nofun : false = true → _) (fun _ : false = false => hedges) rfl
        refine ⟨d, s', by simpa [hmax] using hs', .inr ?_, hjump⟩
        rcases hgrown with ⟨hs, hnone⟩ | ⟨m, hm, hsquare⟩
        · exact ⟨n, Nat.le_refl n, hiff.mp rfl, fun m hm => Nat.not_lt.mp fun hlt =>
            hnone m hlt hm, hs⟩
        · exact ⟨m, Nat.le_of_lt hm, hsquare⟩
    · refine ⟨0, s, by rw [sizeLoop, if_neg hloop], .inl ⟨rfl, fun m hm hsquare => hloop ?_⟩, .stay⟩
      have hle := hsquare.le
      omega

/-- A corner: the largest square there becomes the best one if it is larger. -/
theorem squareCell_spec (hmax : 1 ≤ s.max) (hi : i < bitmap.cols) (hj : j < bitmap.rows) :
    ∃ d s', bitmap.squareCell j i s = some (d, s') ∧ bitmap.Grown j i (s.max + 1) s s' ∧
      bitmap.Jump j i s.max d := by
  rcases getcolor_cases hi hj with ⟨hread, hzero⟩ | ⟨hread, hone⟩
  · refine ⟨0, s, by simp [squareCell, hread], .stop fun m hm h => hzero ?_, .stay⟩
    exact (h 0 (by omega)).1
  · rw [squareCell, hread]
    exact sizeLoop_spec (by omega) hone (Nat.lt_succ_self _) (fun _ => rfl) (by simp)

/-- The sides along a run are all tried, and the zero behind it makes the search jump. -/
theorem sizeLoop_run (hrun : bitmap.RunEnds j i d) (hn : 2 ≤ n) (hd : n ≤ d + 1)
    (hedges : check = false → bitmap.Edges j i (n - 1)) :
    ∃ s', sizeLoop bitmap j i n check s = some (d, s') := by
  have hinside := hrun.inside
  have hone : bitmap.One j i := (hrun.edges 0 (by omega)).1
  induction hk : d + 1 - n generalizing n check s with
  | zero =>
    obtain rfl : n = d + 1 := by omega
    obtain ⟨hread, -⟩ | ⟨-, hone⟩ :=
      getcolor_cases hinside.1 (show j < bitmap.rows by omega)
    · refine ⟨s, ?_⟩
      rw [sizeLoop, if_pos (by omega)]
      simp [show d + 1 + i - 1 = i + d by omega, hread]
    · exact absurd hone hrun.zero
  | succ k ih =>
    have hcols : n ≤ bitmap.cols - i := by omega
    have hrows : n ≤ bitmap.rows - j := by omega
    obtain ⟨-, -, hnone, -⟩ | ⟨hedges, hnext⟩ :=
      edges_cases (s := s) hn hone hcols hrows hedges
    · exact absurd hrun.edges (hnone d (by omega))
    · obtain ⟨zero, hbelow, -⟩ := isSquare_cases hn hcols hrows hedges
      rw [hnext, hbelow]
      exact ih (by omega) (by omega) (fun _ => hedges) (by omega)

theorem squareCell_run (hrun : bitmap.RunEnds j i d) (hmax : 1 ≤ s.max) (hd : s.max ≤ d) :
    ∃ s', bitmap.squareCell j i s = some (d, s') := by
  have hone : bitmap.getcolor i j = some '1' := (hrun.edges 0 (by omega)).1
  rw [squareCell, hone]
  exact sizeLoop_run hrun (by omega) (by omega) (by simp)

end Bitmap
