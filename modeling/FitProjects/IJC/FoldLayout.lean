import FitProjects.IJC.Fold
import FitProjects.Lib.Page

/-! # The layout of `fold`

What `vypis` prints, as a page: the words that `fgetw` reads, in their order, on lines that are as
long as the width allows. The position that `vypis` counts is the length of the last line, or both
are beyond what another word could fit in (`Laid`). -/

namespace Fold

open Io Page

/-- The results of the calls of `fgetw`. -/
def fgetwTokens (f : List UInt8) : List Token :=
  let returnValue := (fgetw [] wordMaxLength f).1
  let word := (fgetw [] wordMaxLength f).2.1
  let f' := (fgetw [] wordMaxLength f).2.2
  if _ : returnValue = eof then []
  else if returnValue = 0 then .newline :: fgetwTokens f'
  else .word word :: fgetwTokens f'
termination_by f.length
decreasing_by all_goals exact length_fgetw_lt (by decide) ‹_›

def Token.word? : Token → Option (List UInt8)
  | .newline => none
  | .word w => some w

/-- What is printed of a word. -/
def cut (options : Options) (word : List UInt8) : List UInt8 :=
  if options.c ∧ options.width < word.length then word.take options.width else word

/-- What is printed for tokens, and the line behind them. -/
def printed (options : Options) (s : Line) : List Token → List UInt8 × Line
  | [] => ([], s)
  | t :: ts =>
    ((s.put options t).1 ++ (printed options (s.put options t).2 ts).1,
      (printed options (s.put options t).2 ts).2)

variable {options : Options} {f w : List UInt8} {s : Line} {t : Token} {ts : List Token}
  {done : List (List (List UInt8))} {cur : List (List UInt8)}

/-! ### What is read -/

/-- The buffer matters only as long as no word is read. -/
theorem fgetw_buffer (s : List UInt8) (max : Nat) (f : List UInt8) :
    (fgetw s max f).1 = (fgetw [] max f).1 ∧ (fgetw s max f).2.2 = (fgetw [] max f).2.2 ∧
      ((fgetw [] max f).1 = eof ∨ (fgetw [] max f).1 = 0 ∨
        (fgetw s max f).2.1 = (fgetw [] max f).2.1) := by
  rw [fgetw.eq_def, fgetw.eq_def]
  split
  · exact ⟨rfl, rfl, .inr (.inl rfl)⟩
  · split
    · exact ⟨rfl, rfl, .inl rfl⟩
    · exact ⟨rfl, rfl, .inr (.inr rfl)⟩

theorem fgetwTokens_spec (f : List UInt8) :
    (fgetw [] wordMaxLength f).1 = eof ∧ fgetwTokens f = [] ∧ words wordMaxLength f = [] ∨
    (∃ f', (fgetw [] wordMaxLength f).1 = 0 ∧ (fgetw [] wordMaxLength f).2.2 = f' ∧
      f'.length < f.length ∧ fgetwTokens f = .newline :: fgetwTokens f' ∧
      words wordMaxLength f = words wordMaxLength f') ∨
    ∃ w f', fgetw [] wordMaxLength f = (w.length, w, f') ∧ w ≠ [] ∧ f'.length < f.length ∧
      fgetwTokens f = .word w :: fgetwTokens f' ∧
      words wordMaxLength f = w :: words wordMaxLength f' := by
  obtain ⟨f', hget, hlt, hwords⟩ | ⟨hget, hwords⟩ | ⟨w, f', hget, hne, hlt, hwords⟩ :=
    fgetw_spec [] (show 1 ≤ wordMaxLength by decide) f
  · refine .inr (.inl ⟨f', by rw [hget], by rw [hget], hlt, ?_, hwords⟩)
    rw [fgetwTokens, hget]
    rfl
  · refine .inl ⟨by rw [hget], ?_, hwords⟩
    rw [fgetwTokens, hget]
    rfl
  · refine .inr (.inr ⟨w, f', hget, hne, hlt, ?_, hwords⟩)
    have hpos := List.length_pos_iff.mpr hne
    rw [fgetwTokens, hget, dif_neg (show ¬(w.length : Int) = eof by simp [eof]),
      if_neg (by dsimp only; omega)]

/-- The tokens are the words of the text and some line ends between them. -/
theorem filterMap_fgetwTokens (f : List UInt8) :
    (fgetwTokens f).filterMap Token.word? = words wordMaxLength f := by
  induction hn : f.length using Nat.strongRecOn generalizing f with
  | ind n ih =>
    obtain ⟨-, htokens, hwords⟩ | ⟨f', -, -, hlt, htokens, hwords⟩ |
      ⟨w, f', -, -, hlt, htokens, hwords⟩ := fgetwTokens_spec f
    · rw [htokens, hwords]
      rfl
    · rw [htokens, hwords]
      exact ih _ (hn ▸ hlt) f' rfl
    · rw [htokens, hwords, ← ih _ (hn ▸ hlt) f' rfl]
      rfl

/-- `vypis` puts the tokens on lines. -/
theorem vypisLoop_eq (hint : options.width + 4200 ≤ 2 ^ 31)
    (hwf : ∀ w ∈ words wordMaxLength f, 0 ∉ w ∧ w.length ≤ wordMaxLength) (word : List UInt8)
    (hs : s.Bounded options) :
    vypisLoop options word f s.current s.newLine = layout options s (fgetwTokens f) := by
  induction hn : f.length using Nat.strongRecOn generalizing f word s with
  | ind n ih =>
    obtain ⟨hresult, hrest, hbuffer⟩ := fgetw_buffer word wordMaxLength f
    obtain ⟨heof, htokens, -⟩ | ⟨f', hzero, hf', hlt, htokens, hwords⟩ |
      ⟨w, f', hget, hne, hlt, htokens, hwords⟩ := fgetwTokens_spec f
    · rw [vypisLoop, dif_pos (hresult.trans heof), htokens, layout]
    · rw [vypisLoop, hresult, hzero, dif_neg (show ¬(0 : Int) = eof by decide), if_pos rfl, hrest,
        hf', htokens, layout, Line.put,
        ← ih _ (hn ▸ hlt) (hwords ▸ hwf) _ (Line.bounded_start options true) rfl]
      cases s.newLine with
      | true => rfl
      | false => rfl
    · have hpos := List.length_pos_iff.mpr hne
      have hnot : ¬(w.length : Int) = eof := by simp [eof]
      have hbuf : (fgetw word wordMaxLength f).2.1 = w := by
        rw [hget] at hbuffer
        exact hbuffer.resolve_left hnot |>.resolve_left (by dsimp only; omega)
      rw [hwords, List.forall_mem_cons] at hwf
      obtain ⟨⟨h0, hlen⟩, hwf⟩ := hwf
      have hput : (s.put options (.word w)).2.Bounded options :=
        Line.bounded_put fun v hv => Token.word.inj hv ▸ hlen
      rw [vypisLoop, hresult, hbuf, hrest, hget, dif_neg hnot, if_neg (by dsimp only; omega),
        htokens, layout, ← ih _ (hn ▸ hlt) hwf _ hput rfl]
      simp only [advance_eq (fun _ => int_of_lt) hint hs hlen, Nat.cast_lt, cstring_cut h0, Line.put]
      rfl

/-! ### What is printed -/

/-- No line is longer than the width, unless it is one word and words are not cut. -/
def Fits (options : Options) (l : List (List UInt8)) : Prop :=
  (line l).length ≤ options.width ∨ options.c = false ∧ ∃ w, l = [w]

/-- Lines, with the position that `vypis` has: the length of the last line. A cut word fills its
line, and then the position counts the part that is not printed. -/
structure Laid (options : Options) (done : List (List (List UInt8))) (cur : List (List UInt8))
    (s : Line) : Prop where
  newLine : s.newLine = true ↔ cur = []
  current : s.current = (line cur).length ∨
    (line cur).length = options.width ∧ options.width < s.current
  bound : s.current ≤ max options.width wordMaxLength
  fits : ∀ l ∈ done ++ [cur], Fits options l

theorem Laid.start (options : Options) : Laid options [] [] ⟨0, true⟩ where
  newLine := by simp
  current := .inl rfl
  bound := Nat.zero_le _
  fits := by simp [Fits]

theorem cut_of_le (h : w.length ≤ options.width) : cut options w = w :=
  if_neg fun hcut => absurd hcut.2 (Nat.not_lt.mpr h)

theorem isWord_cut (hwidth : 1 ≤ options.width) (hw : IsWord w) : IsWord (cut options w) := by
  rw [cut]
  split
  · refine ⟨?_, fun c hc => hw.2 c (List.mem_of_mem_take hc)⟩
    rw [Ne, List.take_eq_nil_iff, not_or]
    exact ⟨by omega, hw.1⟩
  · exact hw

theorem put_newline_nil (hs : s.newLine = true) : s.put options .newline = ([10], ⟨0, true⟩) := by
  rw [Line.put, hs]
  rfl

theorem put_newline_cons (hs : s.newLine = false) :
    s.put options .newline = ([10, 10], ⟨0, true⟩) := by
  rw [Line.put, hs]
  rfl

/-- An empty line. -/
theorem Laid.put_newline (h : Laid options done cur s) :
    ∃ done', page done' [] = page done cur ++ (s.put options .newline).1 ∧
      done'.flatten = done.flatten ++ cur ∧
      Laid options done' [] (s.put options .newline).2 := by
  have hstart : ∀ {done'}, (∀ l ∈ done', Fits options l) → Laid options done' [] ⟨0, true⟩ :=
    fun hfits => { Laid.start options with
      fits := by
        intro l hl
        rcases List.mem_append.mp hl with hl | hl
        · exact hfits l hl
        · rw [List.mem_singleton.mp hl]
          exact .inl (Nat.zero_le _) }
  cases hs : s.newLine with
  | true =>
    obtain rfl := h.newLine.mp hs
    rw [put_newline_nil hs]
    refine ⟨done ++ [[]], page_concat done [], by simp, hstart h.fits⟩
  | false =>
    rw [put_newline_cons hs]
    refine ⟨done ++ [cur] ++ [[]], ?_, by simp, hstart fun l hl => ?_⟩
    · rw [page_concat, page_concat, List.append_assoc]
      rfl
    · rcases List.mem_append.mp hl with hl | hl
      · exact h.fits l hl
      · rw [List.mem_singleton.mp hl]
        exact .inl (Nat.zero_le _)

/-- A word at the start of a line. -/
theorem Laid.single (hfits : ∀ l ∈ done, Fits options l) (hw : w.length ≤ wordMaxLength) :
    Laid options done [cut options w] ⟨w.length, false⟩ where
  newLine := by simp
  current := by
    rw [line_singleton, cut]
    split
    next h => exact .inr ⟨List.length_take_of_le (Nat.le_of_lt h.2), h.2⟩
    next => exact .inl rfl
  bound := Nat.le_trans hw (Nat.le_max_right _ _)
  fits := by
    intro l hl
    rcases List.mem_append.mp hl with hl | hl
    · exact hfits l hl
    · rw [List.mem_singleton.mp hl, Fits, line_singleton]
      rw [cut]
      split
      next => exact .inl (List.length_take_le _ _)
      next h =>
        cases hc : options.c with
        | false => exact .inr ⟨rfl, w, rfl⟩
        | true => exact .inl (Nat.not_lt.mp fun hlt => h ⟨hc, hlt⟩)

/-- Where a word is put: at the start of a line, on a line of its own because the last line has no
place for it, or behind the last line. -/
structure Placed (options : Options) (done : List (List (List UInt8))) (cur : List (List UInt8))
    (w sep : List UInt8) (done' : List (List (List UInt8))) (cur' : List (List UInt8)) : Prop where
  page_eq : page done' cur' = page done cur ++ (sep ++ cut options w)
  words_eq : done'.flatten ++ cur' = done.flatten ++ cur ++ [cut options w]
  ne_nil : cur' ≠ []
  sep_start : cur = [] → sep = []
  sep_middle : cur ≠ [] → sep = [32] ∨
    sep = [10] ∧ options.width < (line cur).length + 1 + (cut options w).length

theorem Laid.put_word (hwidth : 1 ≤ options.width) (h : Laid options done cur s)
    (hw : w.length ≤ wordMaxLength) :
    ∃ sep done' cur', (s.put options (.word w)).1 = sep ++ cut options w ∧
      Placed options done cur w sep done' cur' ∧
      Laid options done' cur' (s.put options (.word w)).2 := by
  have hdone : ∀ l ∈ done, Fits options l := fun l hl => h.fits l (List.mem_append_left _ hl)
  cases hs : s.newLine with
  | true =>
    obtain rfl := h.newLine.mp hs
    have hzero : s.current = 0 := by
      rcases h.current with hcur | ⟨hcur, -⟩
      · exact hcur
      · rw [line_nil, List.length_nil] at hcur
        omega
    have hput : s.put options (.word w) = (cut options w, ⟨w.length, false⟩) := by
      simp only [Line.put, separate, hs, hzero, Nat.zero_add, if_true, cut]
      split
      · rfl
      · rfl
    rw [hput]
    refine ⟨[], done, [cut options w], rfl, ?_, .single hdone hw⟩
    exact {
      page_eq := by simp [page]
      words_eq := by simp
      ne_nil := List.cons_ne_nil _ _
      sep_start := fun _ => rfl
      sep_middle := fun hne => absurd rfl hne }
  | false =>
    have hne : cur ≠ [] := fun hcur => by simp [h.newLine.mpr hcur] at hs
    by_cases hfull : options.width < s.current + w.length + 1
    · have hput : s.put options (.word w) = ([10] ++ cut options w, ⟨w.length, false⟩) := by
        simp only [Line.put, separate, hs, if_pos hfull, Bool.false_eq_true, if_false, cut]
      have hlonger : options.width < (line cur).length + 1 + (cut options w).length := by
        rcases h.current with hcur | ⟨hcur, -⟩
        · rw [cut]
          split
          next hcut => rw [List.length_take_of_le (Nat.le_of_lt hcut.2)]; omega
          next => omega
        · omega
      rw [hput]
      refine ⟨[10], done ++ [cur], [cut options w], rfl, ?_, .single h.fits hw⟩
      exact {
        page_eq := by simp [page]
        words_eq := by simp
        ne_nil := List.cons_ne_nil _ _
        sep_start := fun hnil => absurd hnil hne
        sep_middle := fun _ => .inr ⟨rfl, hlonger⟩ }
    · have hput : s.put options (.word w) =
          ([32] ++ cut options w, ⟨s.current + w.length + 1, false⟩) := by
        simp only [Line.put, separate, hs, if_neg hfull, Bool.false_eq_true, if_false, cut]
      have hcurrent : s.current = (line cur).length := by
        rcases h.current with hcur | ⟨-, hlt⟩
        · exact hcur
        · omega
      have hlength : (line (cur ++ [cut options w])).length = s.current + w.length + 1 := by
        rw [line_concat hne, List.length_append, List.length_cons, cut_of_le (by omega), hcurrent]
        rfl
      rw [hput]
      refine ⟨[32], done, cur ++ [cut options w], rfl, ?_, ?_⟩
      · exact {
          page_eq := by simp [page, line_concat hne]
          words_eq := by simp
          ne_nil := by simp
          sep_start := fun hnil => absurd hnil hne
          sep_middle := fun _ => .inl rfl }
      · exact {
          newLine := by simp
          current := .inl hlength.symm
          bound := Nat.le_trans (Nat.not_lt.mp hfull) (Nat.le_max_left _ _)
          fits := by
            intro l hl
            rcases List.mem_append.mp hl with hl | hl
            · exact hdone l hl
            · rw [List.mem_singleton.mp hl]
              exact .inl (hlength ▸ Nat.not_lt.mp hfull) }

/-- What a token adds to the lines. -/
theorem Laid.put (hwidth : 1 ≤ options.width) (h : Laid options done cur s)
    (ht : ∀ w ∈ t.word?, w.length ≤ wordMaxLength) :
    ∃ done' cur', page done' cur' = page done cur ++ (s.put options t).1 ∧
      done'.flatten ++ cur' = done.flatten ++ cur ++ (t.word?.map (cut options)).toList ∧
      Laid options done' cur' (s.put options t).2 := by
  cases t with
  | newline =>
    obtain ⟨done', hpage, hflatten, hlaid⟩ := h.put_newline
    exact ⟨done', [], hpage, by rw [hflatten]; rfl, hlaid⟩
  | word w =>
    obtain ⟨sep, done', cur', hout, hplaced, hlaid⟩ := h.put_word hwidth (ht w rfl)
    exact ⟨done', cur', by rw [hplaced.page_eq, hout], hplaced.words_eq, hlaid⟩

theorem Laid.printed (hwidth : 1 ≤ options.width) (h : Laid options done cur s)
    (hts : ∀ w ∈ ts.filterMap Token.word?, w.length ≤ wordMaxLength) :
    ∃ done' cur', page done' cur' = page done cur ++ (printed options s ts).1 ∧
      done'.flatten ++ cur' = done.flatten ++ cur ++ (ts.filterMap Token.word?).map (cut options) ∧
      Laid options done' cur' (printed options s ts).2 := by
  induction ts generalizing done cur s with
  | nil => exact ⟨done, cur, (List.append_nil _).symm, (List.append_nil _).symm, h⟩
  | cons t ts ih =>
    have hmem : (t :: ts).filterMap Token.word? = t.word?.toList ++ ts.filterMap Token.word? := by
      cases t with
      | newline => rfl
      | word w => rfl
    rw [hmem] at hts ⊢
    obtain ⟨done₁, cur₁, hpage₁, hwords₁, h₁⟩ := h.put hwidth fun w hw =>
      hts w (List.mem_append_left _ (Option.mem_toList.mpr hw))
    obtain ⟨done₂, cur₂, hpage₂, hwords₂, h₂⟩ := ih h₁ fun w hw =>
      hts w (List.mem_append_right _ hw)
    refine ⟨done₂, cur₂, ?_, ?_, h₂⟩
    · rw [hpage₂, hpage₁, Fold.printed, List.append_assoc]
    · rw [hwords₂, hwords₁, List.map_append, List.append_assoc]
      cases t.word? with
      | none => rfl
      | some w => rfl

theorem printed_append (s : Line) (ts ts' : List Token) : printed options s (ts ++ ts') =
    ((printed options s ts).1 ++ (printed options (printed options s ts).2 ts').1,
      (printed options (printed options s ts).2 ts').2) := by
  induction ts generalizing s with
  | nil => rfl
  | cons t ts ih => rw [List.cons_append, printed, ih, printed, List.append_assoc]

theorem layout_eq_printed (s : Line) (ts : List Token) : layout options s ts =
    (printed options s ts).1 ++ if (printed options s ts).2.newLine then [] else [10] := by
  induction ts generalizing s with
  | nil => rfl
  | cons t ts ih => rw [layout, ih, printed, List.append_assoc]

/-- Blank lines behind a word. -/
theorem printed_newlines (hs : s.newLine = false) (k : Nat) :
    printed options s (List.replicate (k + 1) .newline) =
      (List.replicate (k + 2) 10, ⟨0, true⟩) := by
  have hempty : ∀ k, printed options ⟨0, true⟩ (List.replicate k .newline) =
      (List.replicate k 10, ⟨0, true⟩) := by
    intro k
    induction k with
    | zero => rfl
    | succ k ih =>
      rw [List.replicate_succ, printed, put_newline_nil rfl, ih]
      rfl
  rw [List.replicate_succ, printed, put_newline_cons hs, hempty]
  rfl

/-! ### The words of a text -/

theorem isWord_of_mem_words (hw : w ∈ words wordMaxLength f) :
    IsWord w ∧ w.length ≤ wordMaxLength := by
  have hruns : words wordMaxLength f = (runs (!isspace ·) f).map (·.take wordMaxLength) := by
    simp [words, runs]
  rw [hruns] at hw
  obtain ⟨v, hv, rfl⟩ := List.mem_map.mp hw
  obtain ⟨hne, hblack⟩ := runs.of_mem hv
  refine ⟨⟨?_, fun c hc => ?_⟩, List.length_take_le _ _⟩
  · rw [Ne, List.take_eq_nil_iff, not_or]
    exact ⟨by decide, hne⟩
  · simpa using hblack c (List.mem_of_mem_take hc)

theorem isWord_lines (h : ∀ w ∈ done.flatten ++ cur, IsWord w) :
    (∀ l ∈ done, ∀ w ∈ l, IsWord w) ∧ ∀ w ∈ cur, IsWord w :=
  ⟨fun l hl w hw => h w (List.mem_append_left _ (List.mem_flatten.mpr ⟨l, hl, hw⟩)),
    fun w hw => h w (List.mem_append_right _ hw)⟩

/-- The first tokens of a text, put on lines. -/
theorem exists_laid (hwidth : 1 ≤ options.width) (hts : ts <+: fgetwTokens f) :
    ∃ done cur, page done cur = (printed options ⟨0, true⟩ ts).1 ∧
      done.flatten ++ cur = (ts.filterMap Token.word?).map (cut options) ∧
      (∀ w ∈ done.flatten ++ cur, IsWord w) ∧
      Laid options done cur (printed options ⟨0, true⟩ ts).2 := by
  have hwords : ∀ w ∈ ts.filterMap Token.word?, IsWord w ∧ w.length ≤ wordMaxLength := by
    intro w hw
    obtain ⟨post, hpost⟩ := hts
    refine isWord_of_mem_words (f := f) ?_
    rw [← filterMap_fgetwTokens, ← hpost, List.filterMap_append]
    exact List.mem_append_left _ hw
  obtain ⟨done, cur, hpage, hflatten, hlaid⟩ :=
    (Laid.start options).printed hwidth fun w hw => (hwords w hw).2
  refine ⟨done, cur, hpage, hflatten, fun w hw => ?_, hlaid⟩
  rw [hflatten] at hw
  obtain ⟨v, hv, rfl⟩ := List.mem_map.mp hw
  exact isWord_cut hwidth (hwords v hv).1

/-! ### The law of the layout -/

/-- What `vypis` promises for the output `out`: the words of the text in their order and nothing but
blanks and line ends between them; no line that is longer than the width, unless it is one word;
between two words one separator, which is a line end only when the line has no place for the other
word, or the blank lines that were read; and an end of the last line. -/
structure Folded (options : Options) (f out : List UInt8) : Prop where
  words : runs (!isspace ·) out = (Io.words wordMaxLength f).map (cut options)
  white : ∀ c ∈ out, isspace c → c = 32 ∨ c = 10
  lines : ∀ l ∈ out.splitOnP (· = 10), options.width < l.length →
    options.c = false ∧ runs (!isspace ·) l = [l]
  separator : ∀ pre u k v post,
    fgetwTokens f = pre ++ .word u :: (List.replicate k .newline ++ .word v :: post) →
    ∃ before sep after, out = before ++ cut options u ++ sep ++ cut options v ++ after ∧
      runs (!isspace ·) before = (pre.filterMap Token.word?).map (cut options) ∧
      (k = 0 → sep = [32] ∨ sep = [10] ∧
        options.width < (lastLine (before ++ cut options u)).length + 1 + (cut options v).length) ∧
      (1 ≤ k → sep = List.replicate (k + 1) 10)
  ended : out ≠ [] → out.getLast? = some 10

/-- What is printed between two words. -/
theorem exists_separator (hwidth : 1 ≤ options.width) (hfold : fgetwTokens f =
      pre ++ .word u :: (List.replicate k .newline ++ .word v :: post)) :
    ∃ before sep after, layout options ⟨0, true⟩ (fgetwTokens f) =
        before ++ cut options u ++ sep ++ cut options v ++ after ∧
      runs (!isspace ·) before = (pre.filterMap Token.word?).map (cut options) ∧
      (k = 0 → sep = [32] ∨ sep = [10] ∧
        options.width < (lastLine (before ++ cut options u)).length + 1 + (cut options v).length) ∧
      (1 ≤ k → sep = List.replicate (k + 1) 10) := by
  have hword : ∀ w, .word w ∈ fgetwTokens f → IsWord w ∧ w.length ≤ wordMaxLength := by
    intro w hw
    refine isWord_of_mem_words (f := f) ?_
    rw [← filterMap_fgetwTokens]
    exact List.mem_filterMap.mpr ⟨_, hw, rfl⟩
  obtain ⟨hu, hulength⟩ := hword u (by simp [hfold])
  obtain ⟨-, hvlength⟩ := hword v (by simp [hfold])
  obtain ⟨done, cur, hpage, hflatten, hisWord, hlaid⟩ :=
    exists_laid hwidth (show pre <+: fgetwTokens f from ⟨_, hfold.symm⟩)
  rw [layout_eq_printed, hfold, printed_append, printed]
  generalize printed options ⟨0, true⟩ pre = p at hpage hlaid ⊢
  obtain ⟨out, s₁⟩ := p
  obtain rfl : page done cur = out := hpage
  obtain ⟨sepu, done₁, cur₁, houtu, hplaced, hlaid₁⟩ := hlaid.put_word hwidth hulength
  have hnewLine : (s₁.put options (.word u)).2.newLine = false := rfl
  rw [houtu]
  generalize (s₁.put options (.word u)).2 = s₂ at hlaid₁ hnewLine ⊢
  have hbefore : runs (!isspace ·) (page done cur ++ sepu) =
      (pre.filterMap Token.word?).map (cut options) := by
    have hsep : ∀ c ∈ sepu, (!isspace c) = false := by
      by_cases hcur : cur = []
      · simp [hplaced.sep_start hcur]
      · rcases hplaced.sep_middle hcur with rfl | ⟨rfl, -⟩
        · exact fun c hc => by rw [List.mem_singleton.mp hc]; rfl
        · exact fun c hc => by rw [List.mem_singleton.mp hc]; rfl
    rw [runs.append_end hsep, runs_page (isWord_lines hisWord).1 (isWord_lines hisWord).2,
      hflatten]
  have hisWord₁ : ∀ w ∈ done₁.flatten ++ cur₁, IsWord w := by
    rw [hplaced.words_eq]
    intro w hw
    rcases List.mem_append.mp hw with hw | hw
    · exact hisWord w hw
    · exact List.mem_singleton.mp hw ▸ isWord_cut hwidth hu
  cases k with
  | zero =>
    obtain ⟨sep, done₂, cur₂, houtv, hplaced₂, -⟩ := hlaid₁.put_word hwidth hvlength
    rw [List.replicate_zero, List.nil_append, printed, houtv]
    refine ⟨page done cur ++ sepu, sep, _, by simp only [List.append_assoc]; rfl, hbefore,
      fun _ => ?_, fun hk => absurd hk (by decide)⟩
    have hlast : page done cur ++ sepu ++ cut options u = page done₁ cur₁ := by
      rw [hplaced.page_eq, List.append_assoc]
    rw [hlast, lastLine_page (isWord_lines hisWord₁).1 (isWord_lines hisWord₁).2]
    exact hplaced₂.sep_middle hplaced.ne_nil
  | succ k =>
    obtain ⟨sep, done₂, cur₂, houtv, hplaced₂, -⟩ :=
      (Laid.start options).put_word hwidth hvlength
    obtain rfl := hplaced₂.sep_start rfl
    rw [printed_append, printed_newlines hnewLine, printed, houtv]
    exact ⟨page done cur ++ sepu, List.replicate (k + 2) 10, _,
      by simp only [List.append_assoc, List.nil_append]; rfl, hbefore,
      fun hk => absurd hk (by simp), fun _ => rfl⟩

/-- The layout law of `vypis`; and the position stays below `INT_MAX`. -/
theorem vypis_layout_law (hwidth : 1 ≤ options.width) (hint : options.width + 4200 ≤ 2 ^ 31)
    (h0 : 0 ∉ f) : Folded options f (vypis options f) ∧
      ∀ pre w post, fgetwTokens f = pre ++ .word w :: post →
        (printed options ⟨0, true⟩ pre).2.current + w.length + 1 < 2 ^ 31 := by
  have hvypis : vypis options f = layout options ⟨0, true⟩ (fgetwTokens f) :=
    vypisLoop_eq hint (fun w hw => ⟨fun hzero => h0 (mem_of_mem_words hw hzero),
      (isWord_of_mem_words hw).2⟩) _ (Line.bounded_start options true)
  obtain ⟨done, cur, hpage, hflatten, hisWord, hlaid⟩ :=
    exists_laid hwidth (List.prefix_refl (fgetwTokens f))
  have hended : ∃ done', layout options ⟨0, true⟩ (fgetwTokens f) = page done' [] ∧
      done'.flatten = done.flatten ++ cur ∧ ∀ l ∈ done', Fits options l := by
    rw [layout_eq_printed, ← hpage]
    cases hs : (printed options ⟨0, true⟩ (fgetwTokens f)).2.newLine with
    | true =>
      obtain rfl := hlaid.newLine.mp hs
      exact ⟨done, by simp, by simp, fun l hl => hlaid.fits l (List.mem_append_left _ hl)⟩
    | false => exact ⟨done ++ [cur], (page_concat done cur).symm, by simp, hlaid.fits⟩
  obtain ⟨done', hout, hflatten', hfits⟩ := hended
  rw [filterMap_fgetwTokens] at hflatten
  have hdone' : ∀ l ∈ done', ∀ w ∈ l, IsWord w := fun l hl w hw =>
    hisWord w (hflatten' ▸ List.mem_flatten.mpr ⟨l, hl, hw⟩)
  have hnil : ∀ w ∈ ([] : List (List UInt8)), IsWord w := List.forall_mem_nil _
  refine ⟨?_, fun pre w post hfold => ?_⟩
  · rw [hvypis]
    refine {
      words := ?_
      white := fun c hc hspace => ?_
      lines := fun l hl hlonger => ?_
      separator := fun pre u k v post hfold => exists_separator hwidth hfold
      ended := fun hne => ?_ }
    · rw [hout, runs_page hdone' hnil, List.append_nil, hflatten', hflatten]
    · rw [hout] at hc
      exact white_of_mem_page hdone' hnil hc hspace
    · rw [hout, splitOnP_page hdone' hnil] at hl
      obtain ⟨ws, hws, rfl⟩ := List.mem_map.mp hl
      rcases List.mem_append.mp hws with hws | hws
      · rcases hfits ws hws with hfit | ⟨hc, w, rfl⟩
        · exact absurd hfit (Nat.not_le.mpr hlonger)
        · refine ⟨hc, ?_⟩
          rw [runs_line (hdone' _ hws), line_singleton]
      · rw [List.mem_singleton.mp hws] at hlonger
        exact absurd hlonger (Nat.not_lt_zero _)
    · rw [hout] at hne ⊢
      rcases done'.eq_nil_or_concat with rfl | ⟨done, l, rfl⟩
      · exact absurd rfl hne
      · rw [List.concat_eq_append, page_concat]
        simp
  · obtain ⟨_, _, -, -, -, hlaid⟩ :=
      exists_laid hwidth (show pre <+: fgetwTokens f from ⟨_, hfold.symm⟩)
    have hbound := hlaid.bound
    have hw : w.length ≤ wordMaxLength := by
      refine (isWord_of_mem_words (f := f) ?_).2
      rw [← filterMap_fgetwTokens, hfold]
      simp [Token.word?]
    have hmax : max options.width wordMaxLength ≤ options.width + wordMaxLength :=
      max_le (Nat.le_add_right _ _) (Nat.le_add_left _ _)
    rw [wordMaxLength] at hmax hw hbound
    omega

/-- Three words on lines of width 3. -/
theorem vypis_layout_law_three : Folded ⟨3, true⟩ [97, 32, 98, 10, 10, 99, 99, 99, 99, 10]
    (vypis ⟨3, true⟩ [97, 32, 98, 10, 10, 99, 99, 99, 99, 10]) :=
  (vypis_layout_law (by decide) (by decide) (by decide)).1

end Fold
