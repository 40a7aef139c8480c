import FitProjects.IZP.Bitmap
import FitProjects.Lib.LongestRun

/-! # Longest lines in a bitmap

`find_hline` and `find_vline` of `IZP/proj3.c`. Both read a bitmap line by line, a row or a column
at a time, and `n` is the number of cells in the run before the current one, so that `max` is one
less than the length of the longest run (`LineState.Scan`). -/

namespace Bitmap

/-- The variables of `find_hline` and of `find_vline`. -/
structure LineState where
  found : Bool
  a : Nat
  b : Nat
  n : Nat
  max : Nat
  out : Coordinates

/-- `n=0; found=false;` -/
def LineState.reset (s : LineState) : LineState := { s with n := 0, found := false }

/-- `if (!found)`: the run starts here. -/
def LineState.begin (s : LineState) (a b : Nat) : LineState :=
  if s.found then s else { s with a := a, b := b, found := true }

/-- The body of the inner loop of `find_hline`. -/
def hlineCell (bitmap : Bitmap) (i : Nat) (s : LineState) (j : Nat) : Option LineState := do
  let c ← bitmap.getcolor j i
  if c = '0' then return s.reset
  let s := s.begin i j
  let s := if s.max < s.n then { s with max := s.n, out := ⟨s.a, s.b, i, j⟩ } else s
  return { s with n := s.n + 1 }

/-- `find_hline`: what is returned, and the coordinates. -/
def findHline (bitmap : Bitmap) (out : Coordinates) : Option (Int × Coordinates) := do
  let s ← (List.range bitmap.rows).foldlM (fun s i =>
    (List.range bitmap.cols).foldlM (bitmap.hlineCell i) s.reset)
    ⟨false, 0, 0, 0, 0, out⟩
  return (if 0 < s.max then 1 else 1, s.out)

/-- The body of the inner loop of `find_vline`. -/
def vlineCell (bitmap : Bitmap) (i : Nat) (s : LineState) (j : Nat) : Option LineState := do
  let c ← bitmap.getcolor i j
  if c = '0' then return s.reset
  let s := s.begin j i
  let s := if s.max < s.n then { s with max := s.n, out := ⟨s.a, s.b, j, i⟩ } else s
  let s := if s.n = s.max ∧ s.a < s.out.x1 then { s with out := ⟨s.a, s.b, j, i⟩ } else s
  return { s with n := s.n + 1 }

/-- `find_vline`: what is returned, and the coordinates. -/
def findVline (bitmap : Bitmap) (out : Coordinates) : Option (Int × Coordinates) := do
  let s ← (List.range bitmap.cols).foldlM (fun s i =>
    (List.range bitmap.rows).foldlM (bitmap.vlineCell i) s.reset)
    ⟨false, 0, 0, 0, 0, out⟩
  return (if 0 < s.max then 1 else 0, s.out)

variable {bitmap : Bitmap} {i j k : Nat} {s : LineState}

/-! ### The scan -/

/-- The state before the cell at position `j` of line `i`. `toOut` and `toStart` are the coordinates
of a segment and of its start. -/
structure LineState.Scan (one : Nat → Nat → Prop) (before : Segment → Segment → Prop)
    (toOut : Segment → Coordinates) (toStart : Nat → Nat → Nat × Nat) (i j : Nat) (s : LineState) :
    Prop where
  tail : Tail one i j s.n
  found : s.found = true ↔ s.n ≠ 0
  start : s.n ≠ 0 → (s.a, s.b) = toStart i (j - s.n)
  best : ∃ best, Best one before i j s.max best ∧
    s.out = if 0 < s.max then toOut best else ⟨0, 0, 0, 0⟩

section
variable {one : Nat → Nat → Prop} {before : Segment → Segment → Prop}
  {toOut : Segment → Coordinates} {toStart : Nat → Nat → Nat × Nat}

theorem LineState.Scan.line (h : s.Scan one before toOut toStart i k)
    (hlen : ∀ i p, one i p → p < k) :
    s.reset.Scan one before toOut toStart (i + 1) 0 where
  tail := .start one (i + 1)
  found := by simp [LineState.reset]
  start := fun h => absurd rfl h
  best := by
    obtain ⟨best, hbest, hout⟩ := h.best
    exact ⟨best, hbest.next hlen, hout⟩

/-- A cell that is `'0'`. -/
theorem LineState.Scan.zero (h : s.Scan one before toOut toStart i j) (hone : ¬one i j) :
    s.reset.Scan one before toOut toStart i (j + 1) where
  tail := .zero hone
  found := by simp [LineState.reset]
  start := fun h => absurd rfl h
  best := by
    obtain ⟨best, hbest, hout⟩ := h.best
    exact ⟨best, hbest.skip hone, hout⟩

theorem LineState.Scan.begin_eq {a b : Nat} (h : s.Scan one before toOut toStart i j)
    (hab : (a, b) = toStart i j) : ∃ a' b',
      s.begin a b = { s with a := a', b := b', found := true } ∧
        (a', b') = toStart i (j - s.n) := by
  cases hfound : s.found with
  | true =>
    refine ⟨s.a, s.b, ?_, h.start (h.found.mp hfound)⟩
    rw [LineState.begin, if_pos hfound, ← hfound]
  | false =>
    have hn : s.n = 0 := not_not.mp fun hn => by simp [h.found.mpr hn] at hfound
    refine ⟨a, b, ?_, by rw [hab, hn]; rfl⟩
    rw [LineState.begin, if_neg (by simp [hfound])]

/-- A cell that is `'1'`. -/
theorem LineState.Scan.succ {a b max : Nat} {out : Coordinates}
    (h : s.Scan one before toOut toStart i j) (hone : one i j) (hab : (a, b) = toStart i (j - s.n))
    (hbest : ∃ best, Best one before i (j + 1) max best ∧
      out = if 0 < max then toOut best else ⟨0, 0, 0, 0⟩) :
    LineState.Scan one before toOut toStart i (j + 1) ⟨true, a, b, s.n + 1, max, out⟩ where
  tail := h.tail.succ hone
  found := by simp
  start := fun _ => by rw [hab, Nat.add_sub_add_right]
  best := hbest

/-- All lines, when every cell keeps the state a scan. -/
theorem LineState.scan_lines {cell : Nat → LineState → Nat → Option LineState} {lines len : Nat}
    (hcell : ∀ i < lines, ∀ j < len, ∀ s : LineState, s.Scan one before toOut toStart i j →
      ∃ s', cell i s j = some s' ∧ s'.Scan one before toOut toStart i (j + 1))
    (hone : ∀ i p, one i p → i < lines ∧ p < len) : ∃ s : LineState,
      (List.range lines).foldlM (fun s i =>
        (List.range len).foldlM (cell i) s.reset)
        ⟨false, 0, 0, 0, 0, ⟨0, 0, 0, 0⟩⟩ = some s ∧
      ((∃ run : Segment, run.IsLongest one before ∧ s.out = toOut run) ∨
        (∀ run : Segment, run.IsRun one → run.length < 2) ∧ s.out = ⟨0, 0, 0, 0⟩) := by
  obtain ⟨s, hs, hscan⟩ := List.foldlM_range_some
    (P := fun i (s : LineState) => s.reset.Scan one before toOut toStart i 0)
    (f := fun s i => (List.range len).foldlM (cell i) s.reset)
    (n := lines) (s := ⟨false, 0, 0, 0, 0, ⟨0, 0, 0, 0⟩⟩)
    { tail := .start one 0
      found := by simp [LineState.reset]
      start := fun h => absurd rfl h
      best := ⟨⟨0, 0, 0⟩, .start one before _, rfl⟩ }
    fun i hi s hscan => by
      obtain ⟨s', hs', hscan'⟩ := List.foldlM_range_some
        (P := fun j (s : LineState) => s.Scan one before toOut toStart i j) hscan (hcell i hi)
      exact ⟨s', hs', hscan'.line fun i p h => (hone i p h).2⟩
  refine ⟨s, hs, ?_⟩
  obtain ⟨best, hbest, hout⟩ : ∃ best, Best one before lines 0 s.max best ∧
    s.out = if 0 < s.max then toOut best else ⟨0, 0, 0, 0⟩ := hscan.best
  have hlines : ∀ k p, one k p → k < lines := fun k p h => (hone k p h).1
  cases hmax : s.max with
  | zero =>
    rw [hmax] at hbest hout
    exact .inr ⟨fun run hrun => hbest.length_lt_two hlines hrun, hout⟩
  | succ max =>
    rw [hmax] at hbest hout
    exact .inl ⟨best, hbest.isLongest hlines (Nat.succ_pos max), hout⟩

end

/-! ### Rows -/

/-- In row-major order. -/
def RowMajor (s t : Segment) : Prop := s.line < t.line ∨ s.line = t.line ∧ s.start ≤ t.start

theorem RowMajor.refl (s : Segment) : RowMajor s s := .inr ⟨rfl, Nat.le_refl _⟩

def hlineOut (s : Segment) : Coordinates := ⟨s.line, s.start, s.line, s.stop⟩

def HScan (bitmap : Bitmap) : Nat → Nat → LineState → Prop :=
  LineState.Scan bitmap.One RowMajor hlineOut fun i j => (i, j)

theorem hlineCell_scan (hi : i < bitmap.rows) (hj : j < bitmap.cols) (h : HScan bitmap i j s) :
    ∃ s', bitmap.hlineCell i s j = some s' ∧ HScan bitmap i (j + 1) s' := by
  rcases getcolor_cases hj hi with ⟨hread, hzero⟩ | ⟨hread, hone⟩
  · refine ⟨_, ?_, h.zero hzero⟩
    rw [hlineCell, hread]
    rfl
  · obtain ⟨a, b, hbegin, hab⟩ := h.begin_eq rfl
    obtain ⟨best, hbest, hout⟩ := h.best
    by_cases hmax : s.max < s.n
    · refine ⟨⟨true, a, b, s.n + 1, s.n, ⟨a, b, i, j⟩⟩, ?_, h.succ hone hab ⟨_,
        hbest.longer .refl h.tail hone hmax, ?_⟩⟩
      · simp [hlineCell, hread, hbegin, hmax]
      · obtain ⟨rfl, rfl⟩ := Prod.mk.inj hab
        rw [if_pos (Nat.zero_lt_of_lt hmax)]
        rfl
    · refine ⟨⟨true, a, b, s.n + 1, s.max, s.out⟩, ?_, h.succ hone hab ⟨best,
        hbest.keep h.tail (Nat.not_lt.mp hmax) fun hn hpos => ?_, hout⟩⟩
      · simp [hlineCell, hread, hbegin, hmax]
      · obtain ⟨-, hseen, hstop⟩ := hbest.isIn hpos
        rcases hseen with hline | ⟨hline, hlt⟩
        · exact .inl hline
        · exact .inr ⟨hline, by dsimp only; omega⟩

/-! ### Columns -/

/-- In row-major order of the starts, where lines are columns. -/
def ColumnsRowMajor (s t : Segment) : Prop :=
  s.start < t.start ∨ s.start = t.start ∧ s.line ≤ t.line

theorem ColumnsRowMajor.refl (s : Segment) : ColumnsRowMajor s s := .inr ⟨rfl, Nat.le_refl _⟩

theorem ColumnsRowMajor.trans {s t u : Segment} (h : ColumnsRowMajor s t)
    (h' : ColumnsRowMajor t u) : ColumnsRowMajor s u := by
  rw [ColumnsRowMajor] at *
  omega

def vlineOut (s : Segment) : Coordinates := ⟨s.start, s.line, s.stop, s.line⟩

def VScan (bitmap : Bitmap) : Nat → Nat → LineState → Prop :=
  LineState.Scan (fun i j => bitmap.One j i) ColumnsRowMajor vlineOut fun i j => (j, i)

theorem vlineCell_scan (hi : i < bitmap.cols) (hj : j < bitmap.rows) (h : VScan bitmap i j s) :
    ∃ s', bitmap.vlineCell i s j = some s' ∧ VScan bitmap i (j + 1) s' := by
  rcases getcolor_cases hi hj with ⟨hread, hzero⟩ | ⟨hread, hone⟩
  · refine ⟨_, ?_, h.zero hzero⟩
    rw [vlineCell, hread]
    rfl
  · obtain ⟨a, b, hbegin, hab⟩ := h.begin_eq rfl
    obtain ⟨best, hbest, hout⟩ := h.best
    have hab' := Prod.mk.inj hab
    by_cases hmax : s.max < s.n
    · refine ⟨⟨true, a, b, s.n + 1, s.n, ⟨a, b, j, i⟩⟩, ?_, h.succ hone hab ⟨_,
        hbest.longer .refl h.tail hone hmax, ?_⟩⟩
      · simp [vlineCell, hread, hbegin, hmax]
      · obtain ⟨rfl, rfl⟩ := hab'
        rw [if_pos (Nat.zero_lt_of_lt hmax)]
        rfl
    · by_cases htie : s.n = s.max ∧ a < s.out.x1
      · -- a best line that starts in a row below
        have hpos : 0 < s.max := by
          refine Nat.pos_of_ne_zero fun hzero => ?_
          rw [hzero, if_neg (Nat.lt_irrefl 0)] at hout
          rw [hout] at htie
          exact absurd htie.2 (Nat.not_lt_zero a)
        refine ⟨⟨true, a, b, s.n + 1, s.max, ⟨a, b, j, i⟩⟩, ?_, h.succ hone hab ⟨_,
          hbest.replace .refl .trans (htie.1 ▸ h.tail) hone (.inl ?_), ?_⟩⟩
        · simp [vlineCell, hread, hbegin, htie]
        · rw [hout, if_pos hpos] at htie
          rw [← htie.1, ← hab'.1]
          exact htie.2
        · obtain ⟨rfl, rfl⟩ := hab'
          rw [if_pos hpos, htie.1]
          rfl
      · refine ⟨⟨true, a, b, s.n + 1, s.max, s.out⟩, ?_, h.succ hone hab ⟨best,
          hbest.keep h.tail (Nat.not_lt.mp hmax) fun hn hpos => ?_, hout⟩⟩
        · simp [vlineCell, hread, hbegin, hmax, htie]
        · have hle : best.start ≤ a := by
            rw [hout, if_pos hpos] at htie
            exact Nat.not_lt.mp fun hlt => htie ⟨hn, hlt⟩
          obtain ⟨-, hseen, hstop⟩ := hbest.isIn hpos
          rw [hab'.1] at hle
          rcases Nat.lt_or_eq_of_le hle with hlt | heq
          · exact .inl hlt
          · rcases hseen with hline | ⟨hline, -⟩
            · exact .inr ⟨heq, Nat.le_of_lt hline⟩
            · exact .inr ⟨heq, Nat.le_of_eq hline⟩

/-! ### The longest lines -/

/-- `find_hline` finds the first of the longest rows of ones and `find_vline` the first of the
longest columns of ones, both in row-major order of their starts. No read is outside. -/
theorem find_lines (bitmap : Bitmap) :
    (∃ result out, bitmap.findHline ⟨0, 0, 0, 0⟩ = some (result, out) ∧
      ((∃ run : Segment, run.IsLongest bitmap.One RowMajor ∧
          out = ⟨run.line, run.start, run.line, run.stop⟩) ∨
        (∀ run : Segment, run.IsRun bitmap.One → run.length < 2) ∧ out = ⟨0, 0, 0, 0⟩)) ∧
    ∃ result out, bitmap.findVline ⟨0, 0, 0, 0⟩ = some (result, out) ∧
      ((∃ run : Segment, run.IsLongest (fun i j => bitmap.One j i) ColumnsRowMajor ∧
          out = ⟨run.start, run.line, run.stop, run.line⟩) ∨
        (∀ run : Segment, run.IsRun (fun i j => bitmap.One j i) → run.length < 2) ∧
          out = ⟨0, 0, 0, 0⟩) := by
  refine ⟨?_, ?_⟩
  · obtain ⟨s, hs, hout⟩ := LineState.scan_lines
      (fun i hi j hj s => hlineCell_scan hi hj) fun i p h => h.lt
    exact ⟨_, s.out, by rw [findHline, hs]; rfl, hout⟩
  · obtain ⟨s, hs, hout⟩ := LineState.scan_lines
      (fun i hi j hj s => vlineCell_scan hi hj) fun i p h => h.lt.symm
    exact ⟨_, s.out, by rw [findVline, hs]; rfl, hout⟩

end Bitmap
