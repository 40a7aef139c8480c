import Mathlib.Data.Nat.Digits.Defs
import Mathlib.Data.Char
import Mathlib.Data.List.Basic

/-! # Shown characters and strings

`show` of the Haskell Prelude on characters and strings, after `GHC.Show`. A printable ASCII
character other than a backslash shows itself, every other character shows at least two. -/

namespace Show

/-- `showString esc s` with `\&` between them if what follows could be read as a part of `esc`. -/
def protectEsc (p : Char → Bool) (esc s : List Char) : List Char :=
  match s with
  | [] => esc
  | c :: s => if p c then esc ++ '\\' :: '&' :: c :: s else esc ++ c :: s

/-- The names of the control characters. -/
def asciiTab : List (List Char) :=
  ["NUL", "SOH", "STX", "ETX", "EOT", "ENQ", "ACK", "BEL", "BS", "HT", "LF", "VT", "FF", "CR",
    "SO", "SI", "DLE", "DC1", "DC2", "DC3", "DC4", "NAK", "SYN", "ETB", "CAN", "EM", "SUB", "ESC",
    "FS", "GS", "RS", "US", "SP"].map String.toList

/-- `showLitChar`. -/
def showLitChar (c : Char) (s : List Char) : List Char :=
  if '\x7f' < c then '\\' :: protectEsc Char.isDigit (Nat.toDigits 10 c.toNat) s
  else if c = '\x7f' then "\\DEL".toList ++ s
  else if c = '\\' then "\\\\".toList ++ s
  else if ' ' ≤ c then c :: s
  else if c = '\x07' then "\\a".toList ++ s
  else if c = '\x08' then "\\b".toList ++ s
  else if c = '\x0c' then "\\f".toList ++ s
  else if c = '\n' then "\\n".toList ++ s
  else if c = '\r' then "\\r".toList ++ s
  else if c = '\t' then "\\t".toList ++ s
  else if c = '\x0b' then "\\v".toList ++ s
  else if c = '\x0e' then protectEsc (· = 'H') "\\SO".toList s
  else '\\' :: asciiTab.getD c.toNat [] ++ s

/-- `showLitString`. -/
def showLitString : List Char → List Char → List Char
  | [], s => s
  | c :: cs, s =>
    if c = '\x22' then '\\' :: '\x22' :: showLitString cs s
    else showLitChar c (showLitString cs s)

/-- `show` on strings. -/
def showString (cs : List Char) : List Char := '\x22' :: showLitString cs ['\x22']

/-- `show` on characters. -/
def showChar (c : Char) : List Char :=
  if c = '\x27' then "'\\''".toList else '\x27' :: showLitChar c ['\x27']

variable {c : Char} {s : List Char}

/-- A character that shows itself. -/
def Literal (c : Char) : Prop := ' ' ≤ c ∧ c < '\x7f' ∧ c ≠ '\\'

instance : Decidable (Literal c) := inferInstanceAs (Decidable (_ ∧ _ ∧ _))

theorem showLitChar_of_literal (hc : Literal c) : showLitChar c s = c :: s := by
  obtain ⟨hspace, hdel, hslash⟩ := hc
  rw [showLitChar, if_neg (lt_asymm hdel), if_neg hdel.ne, if_neg hslash, if_pos hspace]

theorem exists_protectEsc (p : Char → Bool) (esc s : List Char) :
    ∃ e, protectEsc p esc s = esc ++ e ++ s := by
  cases s with
  | nil => exact ⟨[], by simp [protectEsc]⟩
  | cons c s =>
    rw [protectEsc]
    split
    · exact ⟨['\\', '&'], by simp⟩
    · exact ⟨[], by simp⟩

/-- `l` is `s` behind a backslash and a letter, a digit or another backslash. -/
def Escaped (s l : List Char) : Prop :=
  ∃ d e, (d.isAlphanum ∨ d = '\\') ∧ l = '\\' :: d :: (e ++ s)

theorem Escaped.ite {p : Prop} [Decidable p] {l l' : List Char} (h : p → Escaped s l)
    (h' : ¬p → Escaped s l') : Escaped s (if p then l else l') := by
  split
  · exact h ‹p›
  · exact h' ‹¬p›

theorem escaped_of_ascii {n : Nat} (hn : n < 32) : Escaped s ('\\' :: asciiTab.getD n [] ++ s) := by
  have htab : ∀ n < 32, (asciiTab.getD n []).head?.any Char.isAlphanum := by decide
  have hname := htab n hn
  cases ht : asciiTab.getD n [] with
  | nil =>
    rw [ht] at hname
    exact absurd hname (by decide)
  | cons d e =>
    rw [ht] at hname
    exact ⟨d, e, .inl hname, rfl⟩

theorem escaped_toDigits (n : Nat) (s : List Char) :
    Escaped s ('\\' :: protectEsc Char.isDigit (Nat.toDigits 10 n) s) := by
  obtain ⟨e, he⟩ := exists_protectEsc Char.isDigit (Nat.toDigits 10 n) s
  obtain ⟨d, ds, hd⟩ := List.exists_cons_of_ne_nil (Nat.toDigits_ne_nil (n := n) (b := 10))
  have hdigit : d.isDigit :=
    Nat.isDigit_of_mem_toDigits (n := n) (by decide) (Nat.le_refl 10) (hd ▸ List.mem_cons_self)
  refine ⟨d, ds ++ e, .inl ?_, ?_⟩
  · rw [Char.isAlphanum, hdigit, Bool.or_true]
  · rw [he, hd]
    simp

/-- Every character that is not literal is escaped. -/
theorem escaped_showLitChar (hc : ¬Literal c) (s : List Char) : Escaped s (showLitChar c s) := by
  refine .ite (fun _ => escaped_toDigits c.toNat s) fun hdel => ?_
  refine .ite (fun _ => ⟨'D', ['E', 'L'], .inl (by decide), rfl⟩) fun hdel' => ?_
  refine .ite (fun _ => ⟨'\\', [], .inr rfl, rfl⟩) fun hslash => ?_
  refine .ite (fun hspace => ?_) fun hspace => ?_
  · exact absurd ⟨hspace, lt_of_le_of_ne (not_lt.mp hdel) hdel', hslash⟩ hc
  refine .ite (fun _ => ⟨'a', [], .inl (by decide), rfl⟩) fun _ => ?_
  refine .ite (fun _ => ⟨'b', [], .inl (by decide), rfl⟩) fun _ => ?_
  refine .ite (fun _ => ⟨'f', [], .inl (by decide), rfl⟩) fun _ => ?_
  refine .ite (fun _ => ⟨'n', [], .inl (by decide), rfl⟩) fun _ => ?_
  refine .ite (fun _ => ⟨'r', [], .inl (by decide), rfl⟩) fun _ => ?_
  refine .ite (fun _ => ⟨'t', [], .inl (by decide), rfl⟩) fun _ => ?_
  refine .ite (fun _ => ⟨'v', [], .inl (by decide), rfl⟩) fun _ => ?_
  refine .ite (fun _ => ?_) fun _ => ?_
  · obtain ⟨e, he⟩ := exists_protectEsc (· = 'H') "\\SO".toList s
    exact ⟨'S', 'O' :: e, .inl (by decide), he⟩
  · exact escaped_of_ascii (not_le.mp hspace)

end Show
