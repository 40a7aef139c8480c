import FitProjects.Lib.CString
import Mathlib.Data.Nat.Digits.Defs

/-! # Hexadecimal numbers

Numbers as `std::hex` prints them and as `stoul` with base 16 reads them: after white space, a sign
and a prefix it reads digits up to the first other character. -/

namespace Hex

def digit (d : Nat) : UInt8 := UInt8.ofNat (if d < 10 then 48 + d else 87 + d)

/-- The value of a digit. -/
def value (c : UInt8) : Option Nat :=
  if 48 ≤ c ∧ c ≤ 57 then some (c.toNat - 48)
  else if 97 ≤ c ∧ c ≤ 102 then some (c.toNat - 87)
  else if 65 ≤ c ∧ c ≤ 70 then some (c.toNat - 55)
  else none

def isDigit (c : UInt8) : Bool := (value c).isSome

/-- `stream << std::hex << n`. -/
def print (n : Nat) : List UInt8 := if n = 0 then [48] else (Nat.digits 16 n).reverse.map digit

/-- The number with the digits. -/
def number (digits : List UInt8) : Nat := digits.foldl (fun n c => 16 * n + (value c).getD 0) 0

/-- A minus or plus sign, if there is one. -/
def sign : List UInt8 → Bool × List UInt8
  | [] => (false, [])
  | c :: s => if c = 45 then (true, s) else if c = 43 then (false, s) else (false, c :: s)

/-- A prefix `0x` that is followed by a digit is skipped. -/
def skipPrefix : List UInt8 → List UInt8
  | 48 :: x :: c :: s => if (x = 120 ∨ x = 88) ∧ isDigit c then c :: s else 48 :: x :: c :: s
  | s => s

/-- `std::stoul(s, nullptr, 16)`; `none` is an exception. -/
def stoul (s : List UInt8) : Option Nat :=
  let (negative, s) := sign (s.dropWhile isspace)
  let digits := (skipPrefix s).takeWhile isDigit
  if digits = [] ∨ 2 ^ 64 ≤ number digits then none
  else if negative then some ((2 ^ 64 - number digits) % 2 ^ 64)
  else some (number digits)

/-- `strtol(s, nullptr, 16)`; a text without digits is 0. -/
def strtol (s : List UInt8) : Int :=
  let (negative, s) := sign (s.dropWhile isspace)
  let n : Int := number ((skipPrefix s).takeWhile isDigit)
  if negative then max (-2 ^ 63) (-n) else min (2 ^ 63 - 1) n

variable {c : UInt8} {s rest : List UInt8} {n : Nat}

theorem value_digit (h : d < 16) : value (digit d) = some d := by
  have hall : ∀ d < 16, value (digit d) = some d := by decide
  exact hall d h

theorem isDigit_of_mem_print (h : c ∈ print n) : isDigit c := by
  rw [print] at h
  split at h
  · obtain rfl := List.mem_singleton.mp h
    rfl
  · obtain ⟨d, hd, rfl⟩ := List.mem_map.mp h
    rw [isDigit, value_digit (Nat.digits_lt_base (by decide) (List.mem_reverse.mp hd))]
    rfl

theorem print_ne_nil (n : Nat) : print n ≠ [] := by
  rw [print]
  split
  · exact List.cons_ne_nil _ _
  · rename_i hn
    rw [ne_eq, List.map_eq_nil_iff, List.reverse_eq_nil_iff, Nat.digits_eq_nil_iff_eq_zero]
    exact hn

/-- Reading the digits gives the number back. -/
theorem number_print (n : Nat) : number (print n) = n := by
  have hfold (l : List Nat) (hl : ∀ d ∈ l, d < 16) :
      number (l.reverse.map digit) = Nat.ofDigits 16 l := by
    induction l with
    | nil => rfl
    | cons d l ih =>
      rw [List.forall_mem_cons] at hl
      rw [List.reverse_cons, List.map_append, number, List.foldl_append, ← number, ih hl.2,
        Nat.ofDigits_cons]
      change 16 * Nat.ofDigits 16 l + (value (digit d)).getD 0 = _
      rw [value_digit hl.1]
      exact Nat.add_comm _ _
  rw [print]
  split
  · rename_i hn
    rw [hn]
    rfl
  · rw [hfold _ fun d hd => Nat.digits_lt_base (by decide) hd, Nat.ofDigits_digits]

theorem ne_of_isDigit (hc : isDigit c) (hb : isDigit b = false) : c ≠ b := by
  rintro rfl
  rw [hb] at hc
  cases hc

theorem le_of_isDigit (hc : isDigit c) : 48 ≤ c := by
  rw [isDigit, value] at hc
  split at hc
  · rename_i h
    exact h.1
  · split at hc
    · rename_i h
      exact UInt8.le_trans (by decide) h.1
    · split at hc
      · rename_i h
        exact UInt8.le_trans (by decide) h.1
      · cases hc

theorem not_isspace_of_isDigit (hc : isDigit c) : isspace c = false := by
  have hle : 48 ≤ c.toNat := UInt8.le_iff_toNat_le.mp (le_of_isDigit hc)
  exact isspace_eq_false (by omega)

end Hex
