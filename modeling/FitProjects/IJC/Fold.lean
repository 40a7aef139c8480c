import FitProjects.IJC.Io
import FitProjects.IPK.ChunkedTransfer

/-! # Folding a text

`vypis` of `IJC/proj2/fold.c` and its C++ variant `fold2` of `fold2.cc` on the bytes of a file. Both
put the same tokens on lines (`layout`), but they read the white space between two words in
different ways: `vypisLoop_layout` and `fold2At_layout` say what each of them makes of it. The
warning about a truncated word is left out. The programs count positions in an `int` and in an
`unsigned`; `layout` counts them exactly. -/

namespace Fold

open Io
open ChunkedTransfer (getline length_getline_lt getline_append)

/-- `WORD_MAX_LENGTH` -/
def wordMaxLength : Nat := 4096

/-- `optionsStruct` without the file. -/
structure Options where
  width : Nat
  c : Bool

/-- The arithmetic of `int`, with an overflow taken as a wrap-around. -/
def int (n : Int) : Int := n.bmod (2 ^ 32)

/-- The arithmetic of `unsigned`. -/
def unsigned (n : Int) : Int := n % 2 ^ 32

/-- What both programs put before a word of `length` bytes, and the position behind it, each in its
own arithmetic. -/
def advance (arith : Int → Int) (width : Nat) (length current : Int) (newLine : Bool) :
    List UInt8 × Int :=
  let current := arith (current + length)
  let current := if newLine then current else arith (current + 1)
  if width < current then (if newLine then [] else [10], length)
  else (if newLine then [] else [32], current)

/-- The `while` loop of `vypis` and what follows it. -/
def vypisLoop (options : Options) (word f : List UInt8) (currentPosition : Int) (newLine : Bool) :
    List UInt8 :=
  let returnValue := (fgetw word wordMaxLength f).1
  let word' := (fgetw word wordMaxLength f).2.1
  let f' := (fgetw word wordMaxLength f).2.2
  if _ : returnValue = eof then if newLine then [] else [10]
  else if returnValue = 0 then
    10 :: (if newLine then [] else [10]) ++ vypisLoop options word' f' 0 true
  else
    let word' := if options.c ∧ options.width < returnValue then word'.set options.width 0 else word'
    let (sep, currentPosition) := advance int options.width returnValue currentPosition newLine
    sep ++ cstring word' ++ vypisLoop options word' f' currentPosition false
termination_by f.length
decreasing_by all_goals exact length_fgetw_lt (by decide) ‹_›

/-- `vypis`: what is printed for the bytes `f` of the file. -/
def vypis (options : Options) (f : List UInt8) : List UInt8 :=
  vypisLoop options (List.replicate (wordMaxLength + 1) 0) f 0 true

/-- `iss >> word`: the word and what is left of the line. -/
def extract (iss : List UInt8) : Option (List UInt8 × List UInt8) :=
  let iss := iss.dropWhile isspace
  if iss = [] then none
  else some (iss.takeWhile (!isspace ·), iss.dropWhile (!isspace ·))

theorem length_extract_lt (h : extract iss = some (word, iss')) : iss'.length < iss.length := by
  rw [extract] at h
  split at h
  · cases h
  next hne =>
    obtain ⟨-, rfl⟩ := Prod.mk.inj (Option.some.inj h)
    have hle := (List.dropWhile_suffix (l := iss) isspace).length_le
    obtain ⟨c, rest, hrest⟩ := List.exists_cons_of_ne_nil hne
    have hc : isspace c = false := by
      have hhead := List.head_dropWhile_not isspace hne
      simpa [hrest] using hhead
    have hlt : ((c :: rest).dropWhile (!isspace ·)).length ≤ rest.length := by
      rw [List.dropWhile_cons_of_pos (by simp [hc])]
      exact (List.dropWhile_suffix _).length_le
    rw [hrest] at hle ⊢
    exact Nat.lt_of_lt_of_le (Nat.lt_succ_of_le hlt) hle

/-- The inner loop of `fold2`: what is printed, and the variables behind it. -/
def fold2Words (options : Options) (iss : List UInt8) (current : Int) (newLine : Bool) :
    List UInt8 × Int × Bool :=
  match _h : extract iss with
  | none => ([], current, newLine)
  | some (word, iss') =>
    let length := unsigned word.length
    let word := if options.c ∧ options.width < length then word.take options.width else word
    let (sep, current) := advance unsigned options.width length current newLine
    let rest := fold2Words options iss' current false
    (sep ++ word ++ rest.1, rest.2)
termination_by iss.length
decreasing_by exact length_extract_lt _h

/-- The loop of `fold2` over the lines and what follows it. -/
def fold2Loop (options : Options) (f : List UInt8) (current : Int) (newLine : Bool) : List UInt8 :=
  match _h : getline f with
  | none => if newLine then [] else [10]
  | some (line, f') =>
    if line = [] then (if newLine then [] else [10]) ++ 10 :: fold2Loop options f' 0 true
    else
      let (out, current, newLine) := fold2Words options line current newLine
      out ++ fold2Loop options f' current newLine
termination_by f.length
decreasing_by all_goals exact length_getline_lt _h

/-- `fold2`: what is printed for the bytes `f` of the stream. -/
def fold2 (options : Options) (f : List UInt8) : List UInt8 := fold2Loop options f 0 true

/-! ## Tokens on lines -/

inductive Token
  | newline
  | word (word : List UInt8)

/-- The exact position in the line, and whether the line is empty. -/
structure Line where
  current : Nat
  newLine : Bool

/-- What stands before a word, and the exact position behind it. -/
def separate (width length : Nat) (s : Line) : List UInt8 × Nat :=
  let current := s.current + length
  let current := if s.newLine then current else current + 1
  if width < current then (if s.newLine then [] else [10], length)
  else (if s.newLine then [] else [32], current)

/-- What is printed for a token, and the position behind it. -/
def Line.put (options : Options) (s : Line) : Token → List UInt8 × Line
  | .newline => ((if s.newLine then [] else [10]) ++ [10], ⟨0, true⟩)
  | .word word =>
    let (sep, current) := separate options.width word.length s
    (sep ++ if options.c ∧ options.width < word.length then word.take options.width else word,
      ⟨current, false⟩)

/-- Tokens put on lines, and the end of the last line. -/
def layout (options : Options) : Line → List Token → List UInt8
  | s, [] => if s.newLine then [] else [10]
  | s, t :: ts => (s.put options t).1 ++ layout options (s.put options t).2 ts

/-- A word of a text with the white space behind it. -/
structure Item where
  word : List UInt8
  gap : List UInt8
  ne_nil : word ≠ []
  black : ∀ c ∈ word, isspace c = false
  white : ∀ c ∈ gap, isspace c

/-- The bytes of a text. -/
def bytes (items : List Item) : List UInt8 := (items.map fun i => i.word ++ i.gap).flatten

/-- Words that are apart. -/
def Separated : List Item → Prop
  | [] => True
  | i :: items => (i.gap = [] → items = []) ∧ Separated items

/-- The tokens of a text, with a number of line ends for each gap. -/
def tokens (blanks : List UInt8 → Nat) (items : List Item) : List Token :=
  items.flatMap fun i => .word i.word :: List.replicate (blanks i.gap) .newline

variable {options : Options} {word f h iss w : List UInt8} {s : Line} {items : List Item} {i : Item}
  {t : Token} {ts : List Token}

theorem bytes_cons : bytes (i :: items) = i.word ++ (i.gap ++ bytes items) := by
  rw [bytes, List.map_cons, List.flatten_cons, List.append_assoc]
  rfl

theorem tokens_cons : tokens blanks (i :: items) =
    .word i.word :: (List.replicate (blanks i.gap) .newline ++ tokens blanks items) := by
  rw [tokens, List.flatMap_cons]
  rfl

/-- The next word starts with a byte that is not white space. -/
theorem exists_cons (i : Item) : ∃ c w, i.word = c :: w ∧ isspace c = false ∧
    ∀ b ∈ w, isspace b = false := by
  obtain ⟨c, w, hw⟩ := List.exists_cons_of_ne_nil i.ne_nil
  have hblack := i.black
  rw [hw, List.forall_mem_cons] at hblack
  exact ⟨c, w, hw, hblack⟩

theorem ends_gap (hsep : Separated (i :: items)) : Ends (i.gap ++ bytes items) := by
  cases hgap : i.gap with
  | nil =>
    rw [hsep.1 hgap]
    simp [Ends, bytes]
  | cons c g =>
    have hc : isspace c := i.white c (hgap ▸ List.mem_cons_self)
    simpa [Ends] using hc

/-- Every text is white space and items. -/
theorem exists_items (f : List UInt8) : ∃ g items, (∀ c ∈ g, isspace c) ∧ Separated items ∧
    f = g ++ bytes items := by
  induction f with
  | nil => exact ⟨[], [], by simp, trivial, rfl⟩
  | cons c f ih =>
    obtain ⟨g, items, hg, hsep, rfl⟩ := ih
    cases hc : isspace c with
    | true => exact ⟨c :: g, items, List.forall_mem_cons.mpr ⟨hc, hg⟩, hsep, rfl⟩
    | false =>
      refine ⟨[], ?_⟩
      by_cases hjoin : g = [] ∧ items ≠ []
      · -- the byte goes on with the first word
        obtain ⟨rfl, hne⟩ := hjoin
        obtain ⟨i, items, rfl⟩ := List.exists_cons_of_ne_nil hne
        refine ⟨⟨c :: i.word, i.gap, List.cons_ne_nil c _, ?_, i.white⟩ :: items, by simp, hsep, ?_⟩
        · exact List.forall_mem_cons.mpr ⟨hc, i.black⟩
        · rw [List.nil_append, bytes_cons, bytes_cons]
          rfl
      · refine ⟨⟨[c], g, List.cons_ne_nil c _, by simpa using hc, hg⟩ :: items, by simp,
          ⟨fun hnil => not_not.mp fun hne => hjoin ⟨hnil, hne⟩, hsep⟩, ?_⟩
        rw [List.nil_append, bytes_cons]
        rfl

/-! ## Positions

A line is at most as long as the width or as one word, so neither `int` nor `unsigned` overflows. -/

/-- The position is in the range of the lines that are laid out. -/
def Line.Bounded (options : Options) (s : Line) : Prop := s.current ≤ max options.width wordMaxLength

theorem Line.bounded_start (options : Options) (newLine : Bool) :
    Line.Bounded options ⟨0, newLine⟩ := Nat.zero_le _

theorem separate_le (hlen : length ≤ wordMaxLength) :
    (separate width length s).2 ≤ max width wordMaxLength := by
  by_cases hfull : width < if s.newLine then s.current + length else s.current + length + 1
  · rw [separate, if_pos hfull]
    exact hlen.trans (Nat.le_max_right _ _)
  · rw [separate, if_neg hfull]
    exact (Nat.le_of_not_lt hfull).trans (Nat.le_max_left _ _)

theorem Line.bounded_put (ht : ∀ w, t = .word w → w.length ≤ wordMaxLength) :
    (s.put options t).2.Bounded options := by
  cases t with
  | newline => exact Line.bounded_start options true
  | word w => exact separate_le (ht w rfl)

theorem int_of_lt {n : Int} (h0 : 0 ≤ n) (hn : n < 2 ^ 31) : int n = n :=
  Int.bmod_eq_of_le (by omega) (by omega)

theorem unsigned_of_lt {n : Int} (h0 : 0 ≤ n) (hn : n < 2 ^ 31) : unsigned n = n :=
  Int.emod_eq_of_lt h0 (by omega)

/-- In range the positions are exact. -/
theorem advance_eq {arith : Int → Int} (harith : ∀ n, 0 ≤ n → n < 2 ^ 31 → arith n = n)
    (hint : options.width + 4200 ≤ 2 ^ 31) (hs : s.Bounded options)
    (hlen : length ≤ wordMaxLength) :
    advance arith options.width length s.current s.newLine =
      ((separate options.width length s).1, ((separate options.width length s).2 : Int)) := by
  rw [Line.Bounded, wordMaxLength] at hs
  rw [wordMaxLength] at hlen
  have hsum : arith ((s.current : Int) + (length : Int)) = ((s.current + length : Nat) : Int) := by
    rw [harith _ (by omega) (by omega), Nat.cast_add]
  have hsucc : arith (((s.current + length : Nat) : Int) + 1) =
      ((s.current + length + 1 : Nat) : Int) := by
    rw [harith _ (by omega) (by omega), Nat.cast_add_one]
  simp only [advance, separate, hsum, hsucc]
  cases s.newLine with
  | true =>
    simp only [if_true, Nat.cast_lt]
    split
    · rfl
    · rfl
  | false =>
    simp only [Bool.false_eq_true, if_false, Nat.cast_lt]
    split
    · rfl
    · rfl

/-! ## What `vypis` reads -/

theorem vypisLoop_newline (word f : List UInt8) (s : Line) :
    vypisLoop options word (10 :: f) s.current s.newLine =
      (s.put options .newline).1 ++ vypisLoop options word f 0 true := by
  have hget : fgetw word wordMaxLength (10 :: f) = (0, word, f) := rfl
  rw [vypisLoop, hget, dif_neg (show ¬(0 : Int) = eof by decide), if_pos rfl, Line.put]
  cases s.newLine with
  | true => rfl
  | false => rfl

theorem vypisLoop_end (hh : ∀ c ∈ h, isspace c) (hne : ∀ f', h ≠ 10 :: f') :
    vypisLoop options word h s.current s.newLine = layout options s [] := by
  rw [vypisLoop, fgetw_end hh hne, dif_pos rfl, layout]

/-- What is printed of a word, cut off by a zero or not. -/
theorem cstring_cut (h0 : 0 ∉ w) (p : Prop) [Decidable p] (n : Nat) :
    cstring (if p ∧ n < w.length then w.set n 0 else w) =
      if p ∧ n < w.length then w.take n else w := by
  split
  next hcut =>
    rw [List.set_eq_take_append_cons_drop, if_pos hcut.2, cstring, List.takeWhile_append_of_pos,
      List.takeWhile_cons_of_neg (by simp), List.append_nil]
    intro c hc
    refine decide_eq_true ?_
    rintro rfl
    exact h0 (List.mem_of_mem_take hc)
  next => exact cstring_eq_self h0

/-- A word that is not truncated. -/
theorem vypisLoop_word (hint : options.width + 4200 ≤ 2 ^ 31) (word : List UInt8)
    (hs : s.Bounded options) (hh : ∀ c ∈ h, isspace c) (hne : ∀ f', h ≠ 10 :: f')
    (hsep : Separated (i :: items)) (hlen : i.word.length ≤ wordMaxLength) (h0 : 0 ∉ i.word) :
    ∃ word', vypisLoop options word (h ++ bytes (i :: items)) s.current s.newLine =
      (s.put options (.word i.word)).1 ++ vypisLoop options word' (i.gap ++ bytes items).tail
        (s.put options (.word i.word)).2.current (s.put options (.word i.word)).2.newLine := by
  obtain ⟨c, w, hword, hc, hw⟩ := exists_cons i
  have hget : fgetw word wordMaxLength (h ++ bytes (i :: items)) =
      ((i.word.length : Int), i.word, (i.gap ++ bytes items).tail) := by
    rw [bytes_cons, hword, List.cons_append, fgetw_word (by decide) hh hc hw (ends_gap hsep),
      ← hword, List.take_of_length_le hlen]
    intro f' heq
    cases h with
    | nil =>
      obtain rfl := (List.cons.inj heq).1
      exact absurd hc (by decide)
    | cons b h =>
      obtain rfl := (List.cons.inj heq).1
      exact hne h rfl
  have hpos := List.length_pos_iff.mpr i.ne_nil
  rw [vypisLoop, hget, dif_neg (show ¬(i.word.length : Int) = eof by simp [eof]),
    if_neg (by dsimp only; omega)]
  simp only [advance_eq (fun _ => int_of_lt) hint hs hlen, Nat.cast_lt, cstring_cut h0, Line.put]
  exact ⟨_, rfl⟩

theorem tail_gap (hsep : Separated (i :: items)) :
    (i.gap ++ bytes items).tail = i.gap.drop 1 ++ bytes items := by
  cases hgap : i.gap with
  | nil =>
    rw [hsep.1 hgap]
    rfl
  | cons c g => rfl

/-- The line ends that white space starts with. -/
def lineEnds (g : List UInt8) : Nat := (g.takeWhile (· = 10)).length

/-- The line ends at the start, and what is behind them. -/
theorem exists_lineEnds (h : List UInt8) :
    ∃ h', h = List.replicate (lineEnds h) 10 ++ h' ∧ ∀ f', h' ≠ 10 :: f' := by
  induction h with
  | nil => exact ⟨[], rfl, by simp⟩
  | cons c h ih =>
    by_cases hc : c = 10
    · subst hc
      obtain ⟨h', heq, hne⟩ := ih
      exact ⟨h', congrArg (10 :: ·) heq, hne⟩
    · refine ⟨c :: h, ?_, fun f' heq => hc (List.cons.inj heq).1⟩
      rw [lineEnds, List.takeWhile_cons_of_neg (by simpa using hc)]
      rfl

theorem vypisLoop_replicate (hrest : ∀ s : Line, s.Bounded options →
      vypisLoop options word f s.current s.newLine = layout options s ts)
    (n : Nat) (hs : s.Bounded options) :
    vypisLoop options word (List.replicate n 10 ++ f) s.current s.newLine =
      layout options s (List.replicate n .newline ++ ts) := by
  induction n generalizing s with
  | zero => exact hrest s hs
  | succ n ih =>
    rw [List.replicate_succ, List.cons_append, vypisLoop_newline, List.replicate_succ,
      List.cons_append, layout]
    exact congrArg _ (ih (Line.bounded_start options true))

/-- `vypis` sees the line ends directly behind the byte that ended a word. -/
theorem vypisLoop_layout (hint : options.width + 4200 ≤ 2 ^ 31) (hs : s.Bounded options)
    (hh : ∀ c ∈ h, isspace c) (hsep : Separated items)
    (hlen : ∀ i ∈ items, i.word.length ≤ wordMaxLength) (h0 : ∀ i ∈ items, 0 ∉ i.word) :
    vypisLoop options word (h ++ bytes items) s.current s.newLine = layout options s
      (List.replicate (lineEnds h) .newline ++ tokens (fun g => lineEnds (g.drop 1)) items) := by
  obtain ⟨h', heq, hne⟩ := exists_lineEnds h
  have hh' : ∀ c ∈ h', isspace c := fun c hc => hh c (by rw [heq]; exact List.mem_append_right _ hc)
  nth_rewrite 1 [heq]
  rw [List.append_assoc]
  induction items generalizing word h h' s with
  | nil =>
    refine vypisLoop_replicate (fun s _ => ?_) _ hs
    rw [bytes, List.map_nil, List.flatten_nil, List.append_nil]
    exact vypisLoop_end hh' hne
  | cons i items ih =>
    rw [List.forall_mem_cons] at hlen h0
    refine vypisLoop_replicate (fun s hs => ?_) _ hs
    obtain ⟨word', hread⟩ := vypisLoop_word hint word hs hh' hne hsep hlen.1 h0.1
    have hput : (s.put options (.word i.word)).2.Bounded options :=
      Line.bounded_put fun w hw => Token.word.inj hw ▸ hlen.1
    have hgap : ∀ c ∈ i.gap.drop 1, isspace c := fun c hc => i.white c (List.mem_of_mem_drop hc)
    obtain ⟨g', hg, hgne⟩ := exists_lineEnds (i.gap.drop 1)
    rw [hread, tail_gap hsep, tokens_cons, layout]
    nth_rewrite 1 [hg]
    rw [List.append_assoc, ih hput hgap hsep.2 hlen.2 h0.2 g' hg hgne fun c hc =>
      hgap c (by rw [hg]; exact List.mem_append_right _ hc)]

/-! ## What `fold2` reads -/

/-- What `fold2` prints from the middle of a line on. -/
def fold2Rest (options : Options) (f : List UInt8) (current : Int) (newLine : Bool) : List UInt8 :=
  let r := fold2Words options (f.takeWhile (· ≠ 10)) current newLine
  r.1 ++ fold2Loop options ((f.dropWhile (· ≠ 10)).drop 1) r.2.1 r.2.2

theorem fold2Words_none (h : extract iss = none) :
    fold2Words options iss current newLine = ([], current, newLine) := by
  rw [fold2Words]
  split
  next => rfl
  next heq => cases h.symm.trans heq

theorem fold2Words_congr (h : extract iss = extract iss') :
    fold2Words options iss current newLine = fold2Words options iss' current newLine := by
  rw [fold2Words, fold2Words]
  split
  next heq =>
    split
    next => rfl
    next heq' => cases heq.symm.trans (h.trans heq')
  next heq =>
    split
    next heq' => cases heq.symm.trans (h.trans heq')
    next heq' =>
      obtain ⟨rfl, rfl⟩ := Prod.mk.inj (Option.some.inj (heq.symm.trans (h.trans heq')))
      rfl

theorem fold2Words_some (hint : options.width + 4200 ≤ 2 ^ 31) (hs : s.Bounded options)
    (h : extract iss = some (word, iss')) (hlen : word.length ≤ wordMaxLength) :
    fold2Words options iss s.current s.newLine =
      let s' := (s.put options (.word word)).2
      ((s.put options (.word word)).1 ++ (fold2Words options iss' s'.current s'.newLine).1,
        (fold2Words options iss' s'.current s'.newLine).2) := by
  have hlength : unsigned word.length = word.length := by
    rw [wordMaxLength] at hlen
    exact unsigned_of_lt (by omega) (by omega)
  rw [fold2Words]
  split
  next heq => cases h.symm.trans heq
  next heq =>
    obtain ⟨rfl, rfl⟩ := Prod.mk.inj (Option.some.inj (heq.symm.trans h))
    simp only [hlength, advance_eq (fun _ => unsigned_of_lt) hint hs hlen, Nat.cast_lt, Line.put]

theorem fold2Loop_end : fold2Loop options [] s.current s.newLine = layout options s [] := by
  rw [fold2Loop]
  split
  next => rfl
  next heq => cases heq

theorem fold2Rest_end : fold2Rest options [] s.current s.newLine = layout options s [] := by
  rw [fold2Rest, List.takeWhile_nil, fold2Words_none rfl]
  exact fold2Loop_end

theorem fold2Loop_newline : fold2Loop options (10 :: f) s.current s.newLine =
    (s.put options .newline).1 ++ fold2Loop options f 0 true := by
  rw [fold2Loop]
  split
  next heq => cases heq
  next line f' heq =>
    have hline : getline (10 :: f) = some ([], f) := getline_append List.not_mem_nil f
    obtain ⟨rfl, rfl⟩ := Prod.mk.inj (Option.some.inj (heq.symm.trans hline))
    rw [if_pos rfl, Line.put, List.append_assoc]
    rfl

theorem fold2Loop_of_ne (hne : ∀ f', f ≠ 10 :: f') :
    fold2Loop options f s.current s.newLine = fold2Rest options f s.current s.newLine := by
  cases f with
  | nil => rw [fold2Loop_end, fold2Rest_end]
  | cons c f =>
    have hc : c ≠ 10 := by
      rintro rfl
      exact hne f rfl
    rw [fold2Loop]
    split
    next heq => cases heq
    next line f' heq =>
      obtain ⟨rfl, rfl⟩ := Prod.mk.inj (Option.some.inj heq)
      rw [if_neg (by simp [hc])]
      rfl

theorem fold2Rest_newline :
    fold2Rest options (10 :: f) current newLine = fold2Loop options f current newLine := by
  rw [fold2Rest, List.takeWhile_cons_of_neg (by simp), List.dropWhile_cons_of_neg (by simp),
    fold2Words_none rfl]
  rfl

/-- White space in a line is skipped. -/
theorem fold2Rest_space (hc : isspace c) (hne : c ≠ 10) :
    fold2Rest options (c :: f) s.current s.newLine = fold2Rest options f s.current s.newLine := by
  have hextract : ∀ iss, extract (c :: iss) = extract iss := by
    intro iss
    rw [extract, List.dropWhile_cons_of_pos hc, extract]
  rw [fold2Rest, List.takeWhile_cons_of_pos (by simpa using hne),
    List.dropWhile_cons_of_pos (by simpa using hne), fold2Words_congr (hextract _), fold2Rest]

theorem extract_word (i : Item) (hends : Ends f) : extract (i.word ++ f) = some (i.word, f) := by
  obtain ⟨c, w, hword, hc, hw⟩ := exists_cons i
  have hblack : ∀ c ∈ i.word, (!isspace c) = true := fun c hc => by simp [i.black c hc]
  have htake : f.takeWhile (!isspace ·) = [] ∧ f.dropWhile (!isspace ·) = f := by
    cases f with
    | nil => exact ⟨rfl, rfl⟩
    | cons b f =>
      have hb : isspace b = true := hends b rfl
      exact ⟨List.takeWhile_cons_of_neg (by simp [hb]), List.dropWhile_cons_of_neg (by simp [hb])⟩
  have hdrop : (i.word ++ f).dropWhile isspace = i.word ++ f := by
    rw [hword, List.cons_append, List.dropWhile_cons_of_neg (by simp [hc])]
  rw [extract, hdrop, if_neg (List.append_ne_nil_of_left_ne_nil i.ne_nil f),
    List.takeWhile_append_of_pos hblack, List.dropWhile_append_of_pos hblack, htake.1, htake.2,
    List.append_nil]

/-- A word in a line. -/
theorem fold2Rest_word (hint : options.width + 4200 ≤ 2 ^ 31) (hs : s.Bounded options) (i : Item)
    (hlen : i.word.length ≤ wordMaxLength) (hends : Ends f) :
    fold2Rest options (i.word ++ f) s.current s.newLine =
      let s' := (s.put options (.word i.word)).2
      (s.put options (.word i.word)).1 ++ fold2Rest options f s'.current s'.newLine := by
  have hblack : ∀ c ∈ i.word, decide (c ≠ 10) = true := by
    intro c hc
    refine decide_eq_true ?_
    rintro rfl
    exact absurd (i.black 10 hc) (by decide)
  have hget : extract (i.word ++ f.takeWhile (· ≠ 10)) =
      some (i.word, f.takeWhile (· ≠ 10)) := by
    refine extract_word i fun c hc => hends c ?_
    cases f with
    | nil => exact hc
    | cons b f =>
      rw [List.takeWhile_cons] at hc
      split at hc
      · exact hc
      · cases hc
  rw [fold2Rest, List.takeWhile_append_of_pos hblack, List.dropWhile_append_of_pos hblack,
    fold2Words_some hint hs hget hlen]
  exact List.append_assoc _ _ _

/-- The empty lines that end in white space, which starts a line or not. -/
def emptyLines : Bool → List UInt8 → Nat
  | _, [] => 0
  | start, c :: g => (if start ∧ c = 10 then 1 else 0) + emptyLines (c = 10) g

/-- What `fold2` prints from the start of a line or from the middle of one. -/
def fold2At (options : Options) (start : Bool) (f : List UInt8) (s : Line) : List UInt8 :=
  if start then fold2Loop options f s.current s.newLine else fold2Rest options f s.current s.newLine

theorem fold2At_word (hint : options.width + 4200 ≤ 2 ^ 31) (hs : s.Bounded options) (start : Bool)
    (hlen : i.word.length ≤ wordMaxLength) (hsep : Separated (i :: items)) :
    fold2At options start (bytes (i :: items)) s = (s.put options (.word i.word)).1 ++
      fold2At options false (i.gap ++ bytes items) (s.put options (.word i.word)).2 := by
  rw [bytes_cons]
  refine Eq.trans ?_ (fold2Rest_word hint hs i hlen (ends_gap hsep))
  cases start with
  | false => rfl
  | true =>
    refine fold2Loop_of_ne fun f' heq => ?_
    obtain ⟨c, w, hword, hc, -⟩ := exists_cons i
    rw [hword] at heq
    obtain rfl := (List.cons.inj heq).1
    exact absurd hc (by decide)

theorem fold2At_gap (hrest : ∀ start (s : Line), s.Bounded options →
      fold2At options start f s = layout options s ts)
    (hh : ∀ c ∈ h, isspace c) (start : Bool) (hs : s.Bounded options) :
    fold2At options start (h ++ f) s =
      layout options s (List.replicate (emptyLines start h) .newline ++ ts) := by
  induction h generalizing start s with
  | nil => exact hrest start s hs
  | cons c h ih =>
    rw [List.forall_mem_cons] at hh
    rw [List.cons_append, emptyLines]
    by_cases hc : c = 10
    · subst hc
      cases start with
      | true =>
        rw [if_pos ⟨rfl, rfl⟩, Nat.add_comm, List.replicate_succ, List.cons_append, layout]
        exact fold2Loop_newline.trans (congrArg _ (ih hh.2 true (Line.bounded_start options true)))
      | false =>
        rw [if_neg (by simp), Nat.zero_add]
        exact fold2Rest_newline.trans (ih hh.2 true hs)
    · have hrest' : fold2At options start (c :: (h ++ f)) s = fold2At options false (h ++ f) s := by
        refine Eq.trans ?_ (fold2Rest_space hh.1 hc)
        cases start with
        | true => exact fold2Loop_of_ne fun f' heq => hc (List.cons.inj heq).1
        | false => rfl
      rw [if_neg (by simp [hc]), Nat.zero_add, decide_eq_false hc, hrest']
      exact ih hh.2 false hs

/-- `fold2` sees the empty lines. -/
theorem fold2At_layout (hint : options.width + 4200 ≤ 2 ^ 31) (hs : s.Bounded options)
    (start : Bool) (hh : ∀ c ∈ h, isspace c) (hsep : Separated items)
    (hlen : ∀ i ∈ items, i.word.length ≤ wordMaxLength) :
    fold2At options start (h ++ bytes items) s = layout options s
      (List.replicate (emptyLines start h) .newline ++ tokens (emptyLines false) items) := by
  induction items generalizing start h s with
  | nil =>
    refine fold2At_gap (fun start s _ => ?_) hh start hs
    cases start with
    | true => exact fold2Loop_end
    | false => exact fold2Rest_end
  | cons i items ih =>
    rw [List.forall_mem_cons] at hlen
    refine fold2At_gap (fun start s hs => ?_) hh start hs
    have hput : (s.put options (.word i.word)).2.Bounded options :=
      Line.bounded_put fun w hw => Token.word.inj hw ▸ hlen.1
    rw [fold2At_word hint hs start hlen.1 hsep, tokens_cons, layout]
    exact congrArg _ (ih hput false i.white hsep.2 hlen.2)

end Fold
