import Mathlib.Data.List.Basic

/-! # Bitmaps

The bitmaps of `IZP/proj3.c`, with the cells row by row as `load_bitmap` stores them. -/

/-- `Bitmap`, with what `main` and `load_bitmap` have made sure of. -/
structure Bitmap where
  rows : Nat
  cols : Nat
  cells : List Char
  rows_pos : 1 ≤ rows
  cols_pos : 1 ≤ cols
  length_cells : cells.length = rows * cols
  color : ∀ c ∈ cells, c = '0' ∨ c = '1'

/-- What `x1`, `y1`, `x2` and `y2` point to. -/
structure Coordinates where
  x1 : Nat
  y1 : Nat
  x2 : Nat
  y2 : Nat
  deriving DecidableEq

namespace Bitmap

/-- `getcolor`. `none` stands for a read outside of the bitmap. -/
def getcolor (bitmap : Bitmap) (x y : Nat) : Option Char :=
  if x < bitmap.cols ∧ y < bitmap.rows then bitmap.cells[y * bitmap.cols + x]? else none

/-- The cell in row `i` and column `j` is `'1'`. -/
def One (bitmap : Bitmap) (i j : Nat) : Prop := bitmap.getcolor j i = some '1'

instance (bitmap : Bitmap) (i j : Nat) : Decidable (bitmap.One i j) :=
  inferInstanceAs (Decidable (bitmap.getcolor j i = some '1'))

variable {bitmap : Bitmap} {i j x y : Nat}

/-- The cells of the bitmap can be read. -/
theorem getcolor_cases (hx : x < bitmap.cols) (hy : y < bitmap.rows) :
    bitmap.getcolor x y = some '0' ∧ ¬bitmap.One y x ∨
      bitmap.getcolor x y = some '1' ∧ bitmap.One y x := by
  have hlt : y * bitmap.cols + x < bitmap.cells.length := by
    rw [bitmap.length_cells]
    calc y * bitmap.cols + x < y * bitmap.cols + bitmap.cols := Nat.add_lt_add_left hx _
      _ = (y + 1) * bitmap.cols := (Nat.succ_mul _ _).symm
      _ ≤ bitmap.rows * bitmap.cols := Nat.mul_le_mul_right _ hy
  have hread : bitmap.getcolor x y = some bitmap.cells[y * bitmap.cols + x] := by
    rw [getcolor, if_pos ⟨hx, hy⟩, List.getElem?_eq_getElem hlt]
  rw [One, hread]
  rcases bitmap.color _ (List.getElem_mem hlt) with hc | hc
  · exact .inl ⟨by rw [hc], by rw [hc]; decide⟩
  · exact .inr ⟨by rw [hc], by rw [hc]⟩

theorem One.lt (h : bitmap.One i j) : i < bitmap.rows ∧ j < bitmap.cols := by
  rw [One, getcolor] at h
  split at h
  next hlt => exact ⟨hlt.2, hlt.1⟩
  next => cases h

end Bitmap
