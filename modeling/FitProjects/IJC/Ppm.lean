import FitProjects.IJC.Steganography
import FitProjects.Lib.Decimal

/-! # The image files

`ppm_read` and `ppm_write` of `IJC/proj1/ppm.c`. A file is the list of its bytes. The size of the
data is computed as an `unsigned int`, so it is the product of the dimensions modulo `2 ^ 32`, in
the allocation, in both transfers and in the structure `Steganography.Ppm`. -/

namespace PpmFile

open Steganography (Ppm)

/-- The literal text at the start of a format. -/
def literal : List UInt8 → List UInt8 → Option (List UInt8)
  | [], s => some s
  | c :: format, b :: s => if b = c then literal format s else none
  | _ :: _, [] => none

/-- A space of a format. -/
def skipSpace (s : List UInt8) : List UInt8 := s.dropWhile isspace

/-- `fscanf(fileRead,"P6 %u %u %u",&x,&y,&colors)` with 3 as its result: the numbers and what is not
read. -/
def scanHeader (file : List UInt8) : Option (Nat × Nat × Nat × List UInt8) := do
  let s ← literal [80, 54] file
  let (x, s) ← Decimal.scan (skipSpace s)
  let (y, s) ← Decimal.scan (skipSpace s)
  let (colors, s) ← Decimal.scan (skipSpace s)
  return (x, y, colors, s)

/-- `3*x*y` -/
def dataSize (x y : Nat) : Nat := 3 * x * y % 2 ^ 32

/-- `ppm_read`; `memory` tells whether `malloc` succeeds. -/
def ppm_read (memory : Bool) (file : List UInt8) : Option Ppm := do
  let (x, y, colors, s) ← scanHeader file
  if colors ≠ 255 then none
  else
    match s with
    | [] => none
    | checkWhitespace :: s =>
      if !isspace checkWhitespace then none
      else if !memory then none
      else if h : (s.take (dataSize x y)).length = dataSize x y then
        some {
          xsize := x, ysize := y, data := (s.take (dataSize x y)).map UInt8.toBitVec
          length_eq := by rw [List.length_map, h, dataSize] }
      else none

/-- `ppm_write`: the file after a call that returns 0. -/
def ppm_write (p : Ppm) : List UInt8 :=
  [80, 54, 10] ++ Decimal.print p.xsize ++ [32] ++ Decimal.print p.ysize ++
    [10, 50, 53, 53, 10] ++ (p.data.take (dataSize p.xsize p.ysize)).map UInt8.ofBitVec

/-- What is expected of a structure that `ppm_read` returns: the size is the product of the
dimensions, and a file that is written from it is read as the same structure. -/
structure Sound (p : Ppm) : Prop where
  size : p.data.length = 3 * p.xsize * p.ysize
  roundTrip : ppm_read true (ppm_write p) = some p

variable {memory : Bool} {file : List UInt8} {p : Ppm}

theorem scanHeader_lt {s : List UInt8} {x y colors : Nat}
    (h : scanHeader file = some (x, y, colors, s)) : x < 2 ^ 32 ∧ y < 2 ^ 32 := by
  obtain ⟨s₁, -, h⟩ := Option.bind_eq_some_iff.mp h
  obtain ⟨⟨x', s₂⟩, hx, h⟩ := Option.bind_eq_some_iff.mp h
  obtain ⟨⟨y', s₃⟩, hy, h⟩ := Option.bind_eq_some_iff.mp h
  obtain ⟨⟨colors', s₄⟩, -, h⟩ := Option.bind_eq_some_iff.mp h
  cases h
  exact ⟨Decimal.scan_lt hx, Decimal.scan_lt hy⟩

/-- The dimensions are those of the header. -/
theorem scanHeader_of_ppm_read (h : ppm_read memory file = some p) :
    ∃ colors s, scanHeader file = some (p.xsize, p.ysize, colors, s) := by
  obtain ⟨⟨x, y, colors, s⟩, hheader, h⟩ := Option.bind_eq_some_iff.mp h
  refine ⟨colors, s, ?_⟩
  by_cases hcolors : colors ≠ 255
  · simp [hcolors] at h
  cases s with
  | nil => simp at h
  | cons checkWhitespace s =>
    simp only [if_neg hcolors] at h
    split_ifs at h
    obtain rfl := Option.some.inj h
    exact hheader

theorem scan_skipSpace_print {n : Nat} (hn : n < 2 ^ 32) (space c : UInt8)
    (hspace : isspace space = true) (hc : Decimal.isDigit c = false) (rest : List UInt8) :
    Decimal.scan (skipSpace (space :: (Decimal.print n ++ c :: rest))) = some (n, c :: rest) := by
  rw [skipSpace, Decimal.scan_dropWhile, Decimal.scan_of_isspace hspace, Decimal.scan_print hn hc]

/-- The header of a written file. -/
theorem scanHeader_write {x y : Nat} (hx : x < 2 ^ 32) (hy : y < 2 ^ 32) (rest : List UInt8) :
    scanHeader ([80, 54, 10] ++ Decimal.print x ++ [32] ++ Decimal.print y ++
      [10, 50, 53, 53, 10] ++ rest) = some (x, y, 255, 10 :: rest) := by
  have hcolors : [50, 53, 53] = Decimal.print 255 := by decide
  have hfile : [80, 54, 10] ++ Decimal.print x ++ [32] ++ Decimal.print y ++
      [10, 50, 53, 53, 10] ++ rest = 80 :: 54 :: 10 :: (Decimal.print x ++
        32 :: (Decimal.print y ++ 10 :: (Decimal.print 255 ++ 10 :: rest))) := by
    simp [← hcolors]
  have hliteral (s : List UInt8) : literal [80, 54] (80 :: 54 :: s) = some s := rfl
  rw [hfile, scanHeader, hliteral]
  simp only [Option.bind_eq_bind, Option.bind_some,
    scan_skipSpace_print hx 10 32 rfl rfl, scan_skipSpace_print hy 32 10 rfl rfl,
    scan_skipSpace_print (n := 255) (by decide) 10 10 rfl rfl]
  rfl

/-- A file that is written is read as the same structure. -/
theorem ppm_read_write (hx : p.xsize < 2 ^ 32) (hy : p.ysize < 2 ^ 32) :
    ppm_read true (ppm_write p) = some p := by
  have hdata : p.data.take (dataSize p.xsize p.ysize) = p.data := by
    rw [dataSize, ← p.length_eq, List.take_length]
  have htake : (p.data.map UInt8.ofBitVec).take (dataSize p.xsize p.ysize) =
      p.data.map UInt8.ofBitVec := by rw [← List.map_take, hdata]
  have hlength : (p.data.map UInt8.ofBitVec).length = dataSize p.xsize p.ysize := by
    rw [List.length_map, p.length_eq, dataSize]
  have hback : (p.data.map UInt8.ofBitVec).map UInt8.toBitVec = p.data := by
    rw [List.map_map]
    exact List.map_id _
  have hspace : isspace 10 = true := rfl
  rw [ppm_write, hdata, ppm_read, scanHeader_write hx hy]
  simp only [Option.bind_eq_bind, Option.bind_some, hspace, htake, hback, dif_pos hlength]
  rfl

/-- What `ppm_read` returns is sound exactly if the product of the dimensions in the header fits into
an `unsigned int`. -/
theorem sound_iff (h : ppm_read memory file = some p) :
    ∃ x y colors s, scanHeader file = some (x, y, colors, s) ∧ (Sound p ↔ 3 * x * y < 2 ^ 32) := by
  obtain ⟨colors, s, hheader⟩ := scanHeader_of_ppm_read h
  obtain ⟨hx, hy⟩ := scanHeader_lt hheader
  refine ⟨p.xsize, p.ysize, colors, s, hheader, ?_, ?_⟩
  · intro hsound
    rw [← hsound.size, p.length_eq]
    exact Nat.mod_lt _ (by decide)
  · exact fun hlt => ⟨p.length_eq.trans (Nat.mod_eq_of_lt hlt), ppm_read_write hx hy⟩

/-- The file `P6 1 1 255` with the pixel 1, 2, 3. -/
def onePixel : List UInt8 :=
  [80, 54, 32, 49, 32, 49, 32, 50, 53, 53, 10, 1, 2, 3]

theorem sound_iff_onePixel : Sound ⟨1, 1, [1, 2, 3], rfl⟩ := by
  obtain ⟨x, y, colors, s, hheader, hiff⟩ :=
    sound_iff (show ppm_read true onePixel = some ⟨1, 1, [1, 2, 3], rfl⟩ by rfl)
  obtain ⟨rfl, rfl, -⟩ : x = 1 ∧ y = 1 ∧ colors = 255 ∧ s = [10, 1, 2, 3] := by
    have honePixel : scanHeader onePixel = some (1, 1, 255, [10, 1, 2, 3]) := by rfl
    simpa [honePixel, eq_comm] using hheader
  exact hiff.mpr (by decide)

/-- The header `P6 65536 65536 255` without data. -/
def hugeHeader : List UInt8 :=
  [80, 54, 32, 54, 53, 53, 51, 54, 32, 54, 53, 53, 51, 54, 32, 50, 53, 53, 10]

/-- The structure has no data, and dimensions for 12 GiB. -/
theorem not_sound_hugeHeader :
    ¬ ∀ (file : List UInt8) (p : Ppm), ppm_read true file = some p → Sound p := by
  intro h
  have hread : ppm_read true hugeHeader = some ⟨65536, 65536, [], rfl⟩ := by rfl
  exact absurd (h hugeHeader _ hread).size (by decide)

end PpmFile
