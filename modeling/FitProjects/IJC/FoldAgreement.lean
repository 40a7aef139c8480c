import FitProjects.IJC.Fold

/-! # Where the two variants of `fold` agree

The output of both programs determines how many blank lines they have seen between two words
(`layout_inj`), so `vypis` and `fold2` print the same exactly when they see the same number of them
in the white space at the start and behind each word (`vypis_eq_fold2_iff`). -/

namespace Fold

open Io

variable {options : Options} {f g l : List UInt8} {s : Line} {items : List Item} {i : Item}

/-! ## What the output shows -/

theorem lineEnds_replicate (n : Nat) (l : List UInt8) :
    lineEnds (List.replicate n 10 ++ l) = n + lineEnds l := by
  induction n with
  | zero => rw [List.replicate_zero, List.nil_append, Nat.zero_add]
  | succ n ih =>
    rw [List.replicate_succ, List.cons_append, Nat.add_right_comm, ← ih]
    rfl

theorem layout_newlines (n : Nat) (ts : List Token) :
    layout options ⟨0, true⟩ (List.replicate n .newline ++ ts) =
      List.replicate n 10 ++ layout options ⟨0, true⟩ ts := by
  induction n with
  | zero => rfl
  | succ n ih =>
    rw [List.replicate_succ, List.cons_append, layout, List.replicate_succ, List.cons_append]
    exact congrArg (10 :: ·) ih

theorem layout_newlines_succ (hs : s.newLine = false) (n : Nat) (ts : List Token) :
    layout options s (List.replicate (n + 1) .newline ++ ts) =
      List.replicate (n + 2) 10 ++ layout options ⟨0, true⟩ ts := by
  rw [List.replicate_succ, List.cons_append, layout, Line.put, hs, List.replicate_succ,
    List.replicate_succ]
  exact congrArg (fun l => 10 :: 10 :: l) (layout_newlines n ts)

/-- A word is printed from its first byte on. -/
theorem put_word (hwidth : 1 ≤ options.width) (i : Item) (s : Line) :
    ∃ c text, isspace c = false ∧ (s.put options (.word i.word)).1 =
      (separate options.width i.word.length s).1 ++ c :: text := by
  obtain ⟨c, w, hword, hc, -⟩ := exists_cons i
  obtain ⟨width, hw⟩ : ∃ width, options.width = width + 1 := ⟨_, (Nat.sub_add_cancel hwidth).symm⟩
  have hcut : ∃ text, (if options.c ∧ options.width < i.word.length then
      i.word.take options.width else i.word) = c :: text := by
    split
    next => exact ⟨w.take width, by rw [hword, hw, List.take_succ_cons]⟩
    next => exact ⟨w, hword⟩
  obtain ⟨text, htext⟩ := hcut
  exact ⟨c, text, hc, congrArg _ htext⟩

theorem separate_start (hs : s.newLine = true) : (separate width length s).1 = [] := by
  simp only [separate, hs, if_true]
  split
  · rfl
  · rfl

theorem separate_middle (hs : s.newLine = false) :
    (separate width length s).1 = [10] ∨ (separate width length s).1 = [32] := by
  simp only [separate, hs, Bool.false_eq_true, if_false]
  split
  · exact .inl rfl
  · exact .inr rfl

theorem ne_newline (hc : isspace c = false) : c ≠ 10 := by
  rintro rfl
  exact absurd hc (by decide)

theorem lineEnds_black (hc : isspace c = false) (l : List UInt8) : lineEnds (c :: l) = 0 := by
  rw [lineEnds, List.takeWhile_cons_of_neg (by simpa using ne_newline hc), List.length_nil]

/-- No line ends are printed in an empty line before a word. -/
theorem lineEnds_layout_start (hwidth : 1 ≤ options.width) :
    lineEnds (layout options ⟨0, true⟩ (tokens blanks items)) = 0 := by
  cases items with
  | nil => rfl
  | cons i items =>
    obtain ⟨c, text, hc, hput⟩ := put_word hwidth i ⟨0, true⟩
    rw [tokens_cons, layout, hput, separate_start rfl, List.nil_append, List.cons_append,
      lineEnds_black hc]

/-- At most one line end is printed for words that follow each other. -/
theorem lineEnds_layout_le (hwidth : 1 ≤ options.width) (hs : s.newLine = false)
    (blanks : List UInt8 → Nat) (items : List Item) :
    lineEnds (layout options s (tokens blanks items)) ≤ 1 := by
  cases items with
  | nil =>
    rw [tokens, List.flatMap_nil, layout, hs]
    exact Nat.le_refl 1
  | cons i items =>
    obtain ⟨c, text, hc, hput⟩ := put_word hwidth i s
    rw [tokens_cons, layout, hput]
    rcases separate_middle (s := s) hs with hsep | hsep
    · rw [hsep, List.append_assoc, List.cons_append]
      exact Nat.le_of_eq ((lineEnds_replicate 1 _).trans (congrArg _ (lineEnds_black hc _)))
    · rw [hsep]
      exact Nat.zero_le 1

/-- The blank lines behind a word show in the output. -/
theorem newlines_inj (hwidth : 1 ≤ options.width) (hs : s.newLine = false)
    (h : layout options s (List.replicate n₁ .newline ++ tokens blanks₁ items) =
      layout options s (List.replicate n₂ .newline ++ tokens blanks₂ items)) : n₁ = n₂ := by
  have hsucc : ∀ (n : Nat) (blanks : List UInt8 → Nat), lineEnds (layout options s
      (List.replicate (n + 1) .newline ++ tokens blanks items)) = n + 2 := by
    intro n blanks
    rw [layout_newlines_succ hs, lineEnds_replicate, lineEnds_layout_start hwidth, Nat.add_zero]
  have hlead := congrArg lineEnds h
  cases n₁ with
  | zero =>
    cases n₂ with
    | zero => rfl
    | succ n₂ =>
      have hle := lineEnds_layout_le hwidth hs blanks₁ items
      rw [List.replicate_zero, List.nil_append, hsucc] at hlead
      omega
  | succ n₁ =>
    cases n₂ with
    | zero =>
      have hle := lineEnds_layout_le hwidth hs blanks₂ items
      rw [List.replicate_zero, List.nil_append, hsucc] at hlead
      omega
    | succ n₂ =>
      rw [hsucc, hsucc] at hlead
      omega

/-- The output shows all blank lines behind words. -/
theorem blanks_inj (hwidth : 1 ≤ options.width)
    (h : layout options s (tokens blanks₁ items) = layout options s (tokens blanks₂ items)) :
    ∀ i ∈ items, blanks₁ i.gap = blanks₂ i.gap := by
  induction items generalizing s with
  | nil =>
    intro i hi
    cases hi
  | cons i items ih =>
    rw [tokens_cons, tokens_cons, layout, layout] at h
    have hrest := List.append_cancel_left h
    have hn : blanks₁ i.gap = blanks₂ i.gap := newlines_inj hwidth rfl hrest
    rw [hn] at hrest
    refine List.forall_mem_cons.mpr ⟨hn, ?_⟩
    cases hn₂ : blanks₂ i.gap with
    | zero =>
      rw [hn₂] at hrest
      exact ih hrest
    | succ n =>
      rw [hn₂, layout_newlines_succ rfl, layout_newlines_succ rfl] at hrest
      exact ih (List.append_cancel_left hrest)

theorem tokens_congr (h : ∀ i ∈ items, blanks₁ i.gap = blanks₂ i.gap) :
    tokens blanks₁ items = tokens blanks₂ items := by
  induction items with
  | nil => rfl
  | cons i items ih =>
    rw [List.forall_mem_cons] at h
    rw [tokens_cons, tokens_cons, h.1, ih h.2]

theorem layout_inj (hwidth : 1 ≤ options.width)
    (h : layout options ⟨0, true⟩ (List.replicate n₁ .newline ++ tokens blanks₁ items) =
      layout options ⟨0, true⟩ (List.replicate n₂ .newline ++ tokens blanks₂ items)) :
    n₁ = n₂ ∧ ∀ i ∈ items, blanks₁ i.gap = blanks₂ i.gap := by
  rw [layout_newlines, layout_newlines] at h
  have hlead := congrArg lineEnds h
  rw [lineEnds_replicate, lineEnds_replicate, lineEnds_layout_start hwidth,
    lineEnds_layout_start hwidth] at hlead
  obtain rfl : n₁ = n₂ := hlead
  exact ⟨rfl, blanks_inj hwidth (List.append_cancel_left h)⟩

/-! ## The white space of a text -/

/-- The white space before the first and behind every byte that is not white space. -/
def gaps (f : List UInt8) : List (List UInt8) := f.splitOnP (!isspace ·)

/-- Both programs see the same number of blank lines in all white space of the text: at the start,
and behind each word, whose next byte `vypis` reads with the word. -/
structure SameBlanks (f : List UInt8) : Prop where
  start : ∀ g ∈ (gaps f).head?, lineEnds g = emptyLines true g
  behind : ∀ g ∈ (gaps f).tail, lineEnds (g.drop 1) = emptyLines false g

theorem gaps_black {w : List UInt8} (hw : ∀ c ∈ w, isspace c = false) :
    gaps (w ++ l) = List.replicate w.length [] ++ gaps l := by
  induction w with
  | nil => rfl
  | cons c w ih =>
    rw [List.forall_mem_cons] at hw
    rw [List.cons_append, gaps, List.splitOnP_cons_eq_if_modifyHead, if_pos (by simp [hw.1]),
      List.length_cons, List.replicate_succ, List.cons_append]
    exact congrArg _ (ih hw.2)

/-- The gaps of the items, with nothing between the bytes of a word. -/
theorem gaps_eq (hg : ∀ c ∈ g, isspace c) : gaps (g ++ bytes items) =
    g :: items.flatMap fun i => List.replicate (i.word.length - 1) [] ++ [i.gap] := by
  have hwhite : ∀ {g : List UInt8}, (∀ c ∈ g, isspace c) → ∀ c ∈ g, (!isspace c) = false := by
    intro g hg c hc
    simp [hg c hc]
  induction items generalizing g with
  | nil => exact (congrArg gaps (List.append_nil g)).trans (List.splitOnP_eq_singleton (hwhite hg))
  | cons i items ih =>
    obtain ⟨c, w, hword, hc, hw⟩ := exists_cons i
    rw [bytes_cons, hword, gaps, List.cons_append, List.splitOnP_append_cons_of_forall_mem
      (hwhite hg) c (by simp [hc])]
    refine congrArg (g :: ·) ((gaps_black hw).trans ?_)
    rw [ih i.white, List.flatMap_cons, hword, List.append_assoc]
    rfl

theorem sameBlanks_iff (hg : ∀ c ∈ g, isspace c) : SameBlanks (g ++ bytes items) ↔
    lineEnds g = emptyLines true g ∧
      ∀ i ∈ items, lineEnds (i.gap.drop 1) = emptyLines false i.gap := by
  have hnil : lineEnds (([] : List UInt8).drop 1) = emptyLines false [] := rfl
  constructor
  · rintro ⟨hstart, hbehind⟩
    rw [gaps_eq hg] at hstart hbehind
    refine ⟨hstart g rfl, fun i hi => hbehind i.gap (List.mem_flatMap.mpr ⟨i, hi, ?_⟩)⟩
    exact List.mem_append_right _ (List.mem_singleton_self _)
  · rintro ⟨hstart, hbehind⟩
    refine ⟨?_, ?_⟩
    · rw [gaps_eq hg]
      rintro g' ⟨⟩
      exact hstart
    · rw [gaps_eq hg]
      intro g' hg'
      obtain ⟨i, hi, hmem⟩ := List.mem_flatMap.mp hg'
      rcases List.mem_append.mp hmem with hmem | hmem
      · rw [List.eq_of_mem_replicate hmem]
        exact hnil
      · rw [List.mem_singleton.mp hmem]
        exact hbehind i hi

theorem mem_splitOnP_white (hg : ∀ c ∈ g, isspace c) (hw : w ∈ l.splitOnP isspace) :
    w ∈ (g ++ l).splitOnP isspace := by
  induction g with
  | nil => exact hw
  | cons c g ih =>
    rw [List.forall_mem_cons] at hg
    rw [List.cons_append, List.splitOnP_cons_eq_if_modifyHead, if_pos hg.1]
    exact List.mem_cons_of_mem _ (ih hg.2)

/-- The words of the items are words of the text. -/
theorem word_mem_splitOnP (hg : ∀ c ∈ g, isspace c) (hsep : Separated items) (hi : i ∈ items) :
    i.word ∈ (g ++ bytes items).splitOnP isspace := by
  refine mem_splitOnP_white hg ?_
  clear hg
  induction items with
  | nil => cases hi
  | cons j items ih =>
    rw [bytes_cons]
    cases hgap : j.gap with
    | nil =>
      obtain rfl : items = [] := hsep.1 hgap
      obtain rfl := List.mem_singleton.mp hi
      rw [List.nil_append, bytes, List.map_nil, List.flatten_nil, List.append_nil,
        List.splitOnP_eq_singleton i.black]
      exact List.mem_singleton_self _
    | cons c gap =>
      have hwhite := j.white
      rw [hgap, List.forall_mem_cons] at hwhite
      rw [List.cons_append, List.splitOnP_append_cons_of_forall_mem j.black c hwhite.1]
      rcases List.mem_cons.mp hi with rfl | hi
      · exact List.mem_cons_self
      · exact List.mem_cons_of_mem _ (mem_splitOnP_white hwhite.2 (ih hsep.2 hi))

theorem mem_bytes (hi : i ∈ items) (hc : c ∈ i.word) : c ∈ bytes items := by
  rw [bytes, List.mem_flatten]
  exact ⟨_, List.mem_map_of_mem hi, List.mem_append_left _ hc⟩

/-! ## Agreement -/

/-- What both programs print for white space and items. -/
theorem vypis_fold2_layout (hint : options.width + 4200 ≤ 2 ^ 31) (h0 : 0 ∉ f)
    (hwords : ∀ w ∈ f.splitOnP isspace, w.length ≤ wordMaxLength) :
    ∃ g items, f = g ++ bytes items ∧ (∀ c ∈ g, isspace c) ∧
      vypis options f = layout options ⟨0, true⟩
        (List.replicate (lineEnds g) .newline ++ tokens (fun g => lineEnds (g.drop 1)) items) ∧
      fold2 options f = layout options ⟨0, true⟩
        (List.replicate (emptyLines true g) .newline ++ tokens (emptyLines false) items) := by
  obtain ⟨g, items, hg, hsep, rfl⟩ := exists_items f
  have hlen : ∀ i ∈ items, i.word.length ≤ wordMaxLength := fun i hi =>
    hwords _ (word_mem_splitOnP hg hsep hi)
  have hzero : ∀ i ∈ items, 0 ∉ i.word := fun i hi h =>
    h0 (List.mem_append_right g (mem_bytes hi h))
  have hstart := Line.bounded_start options true
  exact ⟨g, items, rfl, hg, vypisLoop_layout hint hstart hg hsep hlen hzero,
    fold2At_layout hint hstart true hg hsep hlen⟩

/-- Equal outputs show the same blank lines. -/
theorem SameBlanks.of_eq (hwidth : 1 ≤ options.width) (hint : options.width + 4200 ≤ 2 ^ 31)
    (h0 : 0 ∉ f) (hwords : ∀ w ∈ f.splitOnP isspace, w.length ≤ wordMaxLength)
    (h : vypis options f = fold2 options f) : SameBlanks f := by
  obtain ⟨g, items, rfl, hg, hvypis, hfold2⟩ := vypis_fold2_layout hint h0 hwords
  rw [hvypis, hfold2] at h
  exact (sameBlanks_iff hg).mpr (layout_inj hwidth h)

/-- The C program and its C++ variant print the same exactly when they see the same blank lines, for
every width at which the position fits into an `int`. -/
theorem vypis_eq_fold2_iff (hwidth : 1 ≤ options.width) (hint : options.width + 4200 ≤ 2 ^ 31)
    (h0 : 0 ∉ f) (hwords : ∀ w ∈ f.splitOnP isspace, w.length ≤ wordMaxLength) :
    vypis options f = fold2 options f ↔ SameBlanks f := by
  refine ⟨SameBlanks.of_eq hwidth hint h0 hwords, fun h => ?_⟩
  obtain ⟨g, items, rfl, hg, hvypis, hfold2⟩ := vypis_fold2_layout hint h0 hwords
  obtain ⟨hstart, hbehind⟩ := (sameBlanks_iff hg).mp h
  rw [hvypis, hfold2, hstart, tokens_congr hbehind]

/-- A text with a blank line. -/
theorem vypis_eq_fold2_blankLine : vypis ⟨80, false⟩ [97, 10, 10, 98] =
    fold2 ⟨80, false⟩ [97, 10, 10, 98] := by
  refine (vypis_eq_fold2_iff (by decide) (by decide) (by decide) ?_).mpr ⟨?_, ?_⟩
  · decide
  · decide
  · decide

/-- A blank before the line end: `vypis` prints a blank line. -/
theorem vypis_ne_fold2 : ¬ ∀ (options : Options) (f : List UInt8), 1 ≤ options.width → 0 ∉ f →
    (∀ w ∈ f.splitOnP isspace, w.length ≤ wordMaxLength) → vypis options f = fold2 options f := by
  intro h
  have hsame : SameBlanks [97, 32, 10, 98] := SameBlanks.of_eq (by decide) (by decide) (by decide)
    (by decide) (h ⟨80, false⟩ _ (by decide) (by decide) (by decide))
  exact absurd (hsame.behind [32, 10] (by decide)) (by decide)

end Fold
