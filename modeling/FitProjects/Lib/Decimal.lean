import FitProjects.Lib.CString
import Mathlib.Algebra.Group.Nat.Defs
import Mathlib.Data.List.DropRight

/-! # Decimal numbers

Numbers as `%u` and `<<` print them, and as a conversion like `strtoul` with base 10 reads them:
after white space and a sign it takes digits up to the first other character. -/

namespace Decimal

def isDigit (c : UInt8) : Bool := 48 ≤ c && c ≤ 57

/-- The decimal digits of a number. -/
def print (n : Nat) : List UInt8 := (Nat.toDigits 10 n).map fun c => UInt8.ofNat c.toNat

/-- The number with the digits. -/
def number (digits : List UInt8) : Nat := digits.foldl (fun n c => 10 * n + (c.toNat - 48)) 0

/-- A minus or plus sign, if there is one. -/
def sign : List UInt8 → Bool × List UInt8
  | [] => (false, [])
  | c :: s => if c = 45 then (true, s) else if c = 43 then (false, s) else (false, c :: s)

/-- The value of `strtoul`, which is the greatest one for digits that are too many. -/
def value (negative : Bool) (digits : List UInt8) : Nat :=
  if 2 ^ 64 ≤ number digits then 2 ^ 64 - 1
  else if negative then (2 ^ 64 - number digits) % 2 ^ 64
  else number digits

/-- `%u` of `scanf`: the value as an `unsigned int`, and what is not read. -/
def scan (s : List UInt8) : Option (Nat × List UInt8) :=
  let (negative, s) := sign (s.dropWhile isspace)
  let digits := s.takeWhile isDigit
  if digits = [] then none
  else some (value negative digits % 2 ^ 32, s.dropWhile isDigit)

variable {c : UInt8} {s rest : List UInt8} {n : Nat}

theorem toNat_of_mem_toDigits {c : Char} (h : c ∈ Nat.toDigits 10 n) :
    48 ≤ c.toNat ∧ c.toNat ≤ 57 := by
  have hdigit := Nat.isDigit_of_mem_toDigits (by decide) (Nat.le_refl 10) h
  simp only [Char.isDigit, Bool.and_eq_true, decide_eq_true_eq, UInt32.le_iff_toNat_le] at hdigit
  exact hdigit

theorem isDigit_iff : isDigit c = true ↔ 48 ≤ c.toNat ∧ c.toNat ≤ 57 := by
  simp [isDigit, UInt8.le_iff_toNat_le]

theorem isDigit_of_mem_print (h : c ∈ print n) : isDigit c = true := by
  obtain ⟨d, hd, rfl⟩ := List.mem_map.mp h
  have hlt := toNat_of_mem_toDigits hd
  rw [isDigit_iff, UInt8.toNat_ofNat', Nat.mod_eq_of_lt (by omega)]
  exact hlt

theorem print_ne_nil (n : Nat) : print n ≠ [] := by
  rw [print, ne_eq, List.map_eq_nil_iff]
  exact Nat.toDigits_ne_nil

/-- Reading the digits gives the number back. -/
theorem number_print (n : Nat) : number (print n) = n := by
  have hfold (l : List Char) (hl : ∀ c ∈ l, c.toNat ≤ 57) (init : Nat) :
      (l.map fun c => UInt8.ofNat c.toNat).foldl (fun n c => 10 * n + (c.toNat - 48)) init =
        Nat.ofDigitChars 10 l init := by
    induction l generalizing init with
    | nil => rfl
    | cons c l ih =>
      rw [List.forall_mem_cons] at hl
      rw [List.map_cons, List.foldl_cons, ih hl.2, UInt8.toNat_ofNat', Nat.mod_eq_of_lt (by omega)]
      rfl
  rw [number, print, hfold _ fun c hc => (toNat_of_mem_toDigits hc).2,
    Nat.ofDigitChars_ten_toDigits]

theorem print_injective : Function.Injective print := by
  intro m n h
  rw [← number_print m, h, number_print]

theorem ne_of_isDigit (hc : isDigit c = true) (hb : isDigit b = false) : c ≠ b := by
  rintro rfl
  rw [hb] at hc
  cases hc

theorem not_isspace_of_isDigit (hc : isDigit c = true) : isspace c = false := by
  rw [isDigit_iff] at hc
  exact isspace_eq_false (by omega)

theorem scan_of_isspace (hc : isspace c = true) (s : List UInt8) : scan (c :: s) = scan s := by
  rw [scan, List.dropWhile_cons_of_pos hc]
  rfl

theorem scan_dropWhile (s : List UInt8) : scan (s.dropWhile isspace) = scan s := by
  rw [scan, scan, List.dropWhile_idempotent]

theorem scan_lt (h : scan s = some (n, rest)) : n < 2 ^ 32 := by
  rw [scan] at h
  split at h
  dsimp only at h
  split at h
  · cases h
  · obtain ⟨rfl, -⟩ := Prod.mk.inj (Option.some.inj h)
    exact Nat.mod_lt _ (by decide)

theorem dropWhile_isspace_print (n : Nat) (s : List UInt8) :
    (print n ++ s).dropWhile isspace = print n ++ s := by
  obtain ⟨b, bs, hcons⟩ := List.exists_cons_of_ne_nil (print_ne_nil n)
  have hb : isDigit b = true := isDigit_of_mem_print (n := n) (hcons ▸ List.mem_cons_self)
  rw [hcons, List.cons_append, dropWhile_isspace_cons (not_isspace_of_isDigit hb)]

theorem sign_print (n : Nat) (s : List UInt8) : sign (print n ++ s) = (false, print n ++ s) := by
  obtain ⟨b, bs, hcons⟩ := List.exists_cons_of_ne_nil (print_ne_nil n)
  have hb : isDigit b = true := isDigit_of_mem_print (n := n) (hcons ▸ List.mem_cons_self)
  rw [hcons, List.cons_append, sign, if_neg (ne_of_isDigit hb rfl), if_neg (ne_of_isDigit hb rfl)]

theorem takeWhile_print (hc : isDigit c = false) (rest : List UInt8) :
    (print n ++ c :: rest).takeWhile isDigit = print n := by
  rw [List.takeWhile_append_of_pos fun b hb => isDigit_of_mem_print hb,
    List.takeWhile_cons_of_neg (by simp [hc]), List.append_nil]

theorem dropWhile_print (hc : isDigit c = false) (rest : List UInt8) :
    (print n ++ c :: rest).dropWhile isDigit = c :: rest := by
  rw [List.dropWhile_append_of_pos fun b hb => isDigit_of_mem_print hb,
    List.dropWhile_cons_of_neg (by simp [hc])]

/-- A printed number is read up to the first character that is no digit. -/
theorem scan_print (hn : n < 2 ^ 32) (hc : isDigit c = false) (rest : List UInt8) :
    scan (print n ++ c :: rest) = some (n, c :: rest) := by
  have hvalue : value false (print n) = n := by
    rw [value, number_print, if_neg (by omega), if_neg Bool.false_ne_true]
  rw [scan, dropWhile_isspace_print, sign_print]
  simp only [takeWhile_print hc, dropWhile_print hc, if_neg (print_ne_nil n), hvalue,
    Nat.mod_eq_of_lt hn]

end Decimal
