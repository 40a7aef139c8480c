import FitProjects.POS.ShellLine
import FitProjects.POS.ShellArguments
import Mathlib.Data.List.Induction

/-! # The scanner beside the lexer

`parseBuffer` is compared with the command that a line stands for. The scanner goes wrong at `&`
behind a word, which it saves without leaving the state of the word, and at a second sign where it
looks for the end or the beginning of the name of a file. -/

namespace Shell

/-- The command of the words that are finished. -/
def commandOf (line : List UInt8) : Command := (interpret (lex line).tokens).command

/-- The state of the scanner where a word for a place is expected or has been begun. -/
def Place.state (place : Place) (begun : Bool) : FMStates :=
  match place, begun with
  | .argument, false => .new
  | .argument, true => .add
  | .input, false => .input
  | .input, true => .inputAdd
  | .output, false => .output
  | .output, true => .outputAdd

variable {c : UInt8}

/-- The update that saves a word. -/
def Place.save (place : Place) (startPos endPos : Nat) : Update :=
  match place with
  | .argument => .pushArgument startPos endPos
  | .input => .saveInput startPos endPos
  | .output => .saveOutput startPos endPos

theorem Place.update_save (place : Place) (line : List UInt8) (q : Command)
    (startPos endPos : Nat) :
    q.update line (place.save startPos endPos) =
      Reader.word { place, command := q } (copyText line startPos endPos) := by
  cases place <;> rfl

theorem Place.update_setBg (place : Place) (line : List UInt8) (q : Command)
    (startPos endPos : Nat) :
    (q.update line .setBg).update line (place.save startPos endPos) =
      (q.update line (place.save startPos endPos)).update line .setBg := by
  cases place <;> rfl

theorem isWordChar_iff : isWordChar c ↔
    isspace c = false ∧ c ≠ lessSign ∧ c ≠ greaterSign ∧ c ≠ ampersand := by
  simp [isWordChar, and_assoc]

/-- Signs are no white space. -/
theorem ne_of_isspace (hc : isspace c) : c ≠ lessSign ∧ c ≠ greaterSign ∧ c ≠ ampersand := by
  refine ⟨?_, ?_, ?_⟩
  all_goals
    rintro rfl
    exact absurd hc (by decide)

theorem sign_of_isspace (hc : isspace c) : Lexer.sign c = none := by
  obtain ⟨hless, hgreater, hamp⟩ := ne_of_isspace hc
  simp [Lexer.sign, hless, hgreater, hamp]

section
variable {s : Scan} {place : Place} {i : Nat}

theorem scanChar_word_begin (hs : s.state = place.state false) (hc : isWordChar c) (last : Bool) :
    scanChar s i c last = ({ state := place.state true, startPos := i },
      if last then [place.save i i] else []) := by
  obtain ⟨hspace, hless, hgreater, hamp⟩ := isWordChar_iff.mp hc
  cases place <;> simp [scanChar, hs, Place.state, Place.save, hspace, hless, hgreater, hamp]

theorem scanChar_word (hs : s.state = place.state true) (hc : isWordChar c) :
    scanChar s i c false = (s, []) := by
  obtain ⟨hspace, hless, hgreater, hamp⟩ := isWordChar_iff.mp hc
  cases place <;> simp [scanChar, hs, Place.state, hspace, hless, hgreater, hamp]

theorem scanChar_word_last (hs : s.state = place.state true) (hc : isWordChar c) :
    scanChar s i c true = ({ s with state := .new }, [place.save s.startPos i]) := by
  obtain ⟨hspace, hless, hgreater, hamp⟩ := isWordChar_iff.mp hc
  cases place <;> simp [scanChar, hs, Place.state, Place.save, hspace, hless, hgreater, hamp]

theorem scanChar_space (hs : s.state = place.state false) (hc : isspace c) (last : Bool) :
    scanChar s i c last = (s, []) := by
  obtain ⟨state, startPos⟩ := s
  obtain rfl : state = _ := hs
  cases place <;> simp [scanChar, Place.state, hc]

theorem scanChar_space_end (hs : s.state = place.state true) (hc : isspace c) (last : Bool) :
    scanChar s i c last = ({ s with state := .new }, [place.save s.startPos (i - 1)]) := by
  obtain ⟨hless, hgreater, hamp⟩ := ne_of_isspace hc
  cases place <;> simp [scanChar, hs, Place.state, Place.save, hc, hless, hgreater, hamp]

theorem scanChar_less (hs : s.state = .new) (last : Bool) :
    scanChar s i lessSign last = ({ s with state := .input }, []) := by
  simp [scanChar, hs, show isspace lessSign = false by decide]

theorem scanChar_greater (hs : s.state = .new) (last : Bool) :
    scanChar s i greaterSign last = ({ s with state := .output }, []) := by
  simp [scanChar, hs, show isspace greaterSign = false by decide,
    show greaterSign ≠ lessSign by decide]

theorem scanChar_amp (hs : s.state = .new) (last : Bool) :
    scanChar s i ampersand last = (s, [.setBg]) := by
  simp [scanChar, hs, show isspace ampersand = false by decide,
    show ampersand ≠ lessSign by decide, show ampersand ≠ greaterSign by decide]

theorem scanChar_less_end (hs : s.state = place.state true) (hplace : place ≠ .input)
    (last : Bool) :
    scanChar s i lessSign last =
      ({ s with state := .input }, [place.save s.startPos (i - 1)]) := by
  cases place <;> simp_all [scanChar, Place.state, Place.save]

theorem scanChar_greater_end (hs : s.state = place.state true) (hplace : place ≠ .output)
    (last : Bool) :
    scanChar s i greaterSign last =
      ({ s with state := .output }, [place.save s.startPos (i - 1)]) := by
  cases place <;>
    simp_all [scanChar, Place.state, Place.save, show greaterSign ≠ lessSign by decide]

theorem scanChar_amp_end (hs : s.state = place.state true) (last : Bool) :
    scanChar s i ampersand last = (s, [.setBg, place.save s.startPos (i - 1)]) := by
  cases place <;> simp [scanChar, hs, Place.state, Place.save,
    show ampersand ≠ lessSign by decide, show ampersand ≠ greaterSign by decide]

end

/-- The scanner goes wrong at `c`: at `&` behind a word unless it is the last character, at a sign
where a name is expected and at a sign of the same direction behind the name of a file. -/
structure Wrong (before : List UInt8) (c : UInt8) (last : Bool) : Prop where
  sign : c = lessSign ∨ c = greaterSign ∨ c = ampersand
  word : if (lex before).word = [] then (interpret (lex before).tokens).place ≠ .argument
    else c = ampersand ∧ last = false ∨
      c = lessSign ∧ (interpret (lex before).tokens).place = .input ∨
      c = greaterSign ∧ (interpret (lex before).tokens).place = .output

instance (before : List UInt8) (c : UInt8) (last : Bool) : Decidable (Wrong before c last) :=
  decidable_of_iff (_ ∧ _) ⟨fun h => ⟨h.1, h.2⟩, fun h => ⟨h.sign, h.word⟩⟩

/-- The scanner in front of the next character has read the same as the lexer. -/
structure InSync (before : List UInt8) (s : Scan) : Prop where
  state : s.state = (interpret (lex before).tokens).place.state (!(lex before).word.isEmpty)
  startPos : (lex before).word ≠ [] → s.startPos + (lex before).word.length = before.length

variable {before rest : List UInt8} {s : Scan} {last : Bool}

theorem word_suffix (line : List UInt8) : (lex line).word <:+ line := by
  induction line using List.reverseRecOn with
  | nil => exact List.suffix_refl []
  | append_singleton line c ih =>
    rw [lex_append_singleton, Lexer.step]
    split
    next =>
      obtain ⟨u, hu⟩ := ih
      exact ⟨u, by rw [← List.append_assoc, hu]⟩
    next => exact List.nil_suffix

theorem copyText_append (u rest : List UInt8) {w : List UInt8} {endPos : Nat} (hw : w ≠ [])
    (hend : endPos + 1 = u.length + w.length) :
    copyText (u ++ w ++ rest) u.length endPos = w := by
  have hlen : endPos - u.length + 1 = w.length := by
    have hpos := List.length_pos_of_ne_nil hw
    omega
  rw [copyText, hlen, List.append_assoc, List.drop_left, List.take_left]

/-- The scanner remembers where the word begins. -/
theorem InSync.exists_start (h : InSync before s) (hw : (lex before).word ≠ []) :
    ∃ u, u ++ (lex before).word = before ∧ s.startPos = u.length := by
  obtain ⟨u, hu⟩ := word_suffix before
  have hstart := h.startPos hw
  have hlen := congrArg List.length hu
  rw [List.length_append] at hlen
  exact ⟨u, hu, by omega⟩

/-- The scanner copies the word that ends in front of `c`. -/
theorem InSync.copyText (h : InSync before s) (hw : (lex before).word ≠ []) :
    copyText (before ++ rest) s.startPos (before.length - 1) = (lex before).word := by
  obtain ⟨u, hu, hs⟩ := h.exists_start hw
  have hlen := h.startPos hw
  have hpos := List.length_pos_of_ne_nil hw
  have hcopy := copyText_append u rest hw
    (show before.length - 1 + 1 = u.length + (lex before).word.length by omega)
  rwa [hu, ← hs] at hcopy

/-- The scanner copies the word that ends with `c`. -/
theorem InSync.copyText_last (h : InSync before s) (hw : (lex before).word ≠ []) :
    Shell.copyText (before ++ c :: rest) s.startPos before.length = (lex before).word ++ [c] := by
  obtain ⟨u, hu, hs⟩ := h.exists_start hw
  have hlen := h.startPos hw
  have hcopy := copyText_append u rest (List.append_ne_nil_of_right_ne_nil _ (List.cons_ne_nil c []))
    (show before.length + 1 = u.length + ((lex before).word ++ [c]).length by
      rw [List.length_append, List.length_singleton]
      omega)
  rwa [← List.append_assoc, hu, ← hs, List.append_assoc] at hcopy

theorem copyText_self :
    copyText (before ++ c :: rest) before.length before.length = [c] := by
  have hcopy := copyText_append before rest (List.cons_ne_nil c [])
    (show before.length + 1 = before.length + [c].length from rfl)
  rwa [List.append_assoc] at hcopy

theorem lex_append_word (hc : isWordChar c) :
    lex (before ++ [c]) = { lex before with word := (lex before).word ++ [c] } := by
  rw [lex_append_singleton, Lexer.step, if_pos hc]

theorem lex_append_sign (hc : isWordChar c = false) :
    lex (before ++ [c]) =
      { tokens := tokens before ++ (Lexer.sign c).toList, word := [] } := by
  rw [lex_append_singleton, Lexer.step, if_neg (by simp [hc])]
  rfl

/-- Where a word has been begun, the tokens end with it. -/
theorem interpret_tokens (hw : (lex before).word ≠ []) : interpret (tokens before) =
    { place := .argument, command := (interpret (lex before).tokens).word (lex before).word } := by
  rw [tokens, Lexer.flush, if_neg hw, interpret_append]
  rfl

theorem tokens_of_word_nil (hw : (lex before).word = []) : tokens before = (lex before).tokens :=
  if_pos hw

/-- The state between two words. -/
theorem InSync.state_nil (h : InSync before s) (hw : (lex before).word = []) :
    s.state = (interpret (lex before).tokens).place.state false := by
  have hstate := h.state
  rwa [hw] at hstate

/-- The state inside of a word. -/
theorem InSync.state_cons (h : InSync before s) (hw : (lex before).word ≠ []) :
    s.state = (interpret (lex before).tokens).place.state true := by
  have hstate := h.state
  rwa [List.isEmpty_eq_false_iff.mpr hw] at hstate

/-- A character of a word leads into the state of the word. -/
theorem InSync.step_word (h : InSync before s) (hc : isWordChar c) :
    InSync (before ++ [c]) (scanChar s before.length c false).1 ∧
      (scanChar s before.length c false).2 = [] := by
  have hne : ((lex before).word ++ [c]).isEmpty = false :=
    List.isEmpty_eq_false_iff.mpr (List.append_ne_nil_of_right_ne_nil _ (List.cons_ne_nil c []))
  by_cases hw : (lex before).word = []
  · rw [scanChar_word_begin (h.state_nil hw) hc]
    refine ⟨{ state := ?_, startPos := ?_ }, rfl⟩
    · simp [lex_append_word hc, hne]
    · simp [lex_append_word hc, hw]
  · rw [scanChar_word (h.state_cons hw) hc]
    refine ⟨{ state := ?_, startPos := ?_ }, rfl⟩
    · simp [lex_append_word hc, h.state_cons hw, hne]
    · have hstart := h.startPos hw
      simp [lex_append_word hc]
      omega

/-- The last character of a word at the end of the line. -/
theorem InSync.last_word (h : InSync before s) (hc : isWordChar c) :
    (scanChar s before.length c true).2.foldl (Command.update (before ++ [c])) (commandOf before) =
      reference (before ++ [c]) := by
  have hend : reference (before ++ [c]) =
      (interpret (lex before).tokens).word ((lex before).word ++ [c]) := by
    have hread := interpret_tokens
      (show (lex (before ++ [c])).word ≠ [] by simp [lex_append_word hc])
    rw [lex_append_word hc] at hread
    rw [reference, hread]
  rw [hend]
  by_cases hw : (lex before).word = []
  · rw [scanChar_word_begin (h.state_nil hw) hc, if_pos rfl, List.foldl_cons, List.foldl_nil,
      Place.update_save, copyText_self, hw]
    rfl
  · rw [scanChar_word_last (h.state_cons hw) hc, List.foldl_cons, List.foldl_nil,
      Place.update_save, h.copyText_last hw]
    rfl

theorem eq_of_isWordChar (hc : isWordChar c = false) :
    isspace c ∨ c = lessSign ∨ c = greaterSign ∨ c = ampersand := by
  by_contra h
  simp only [not_or, Bool.not_eq_true] at h
  exact Bool.eq_false_iff.mp hc (isWordChar_iff.mpr h)

/-- Behind white space and behind a sign no word has been begun. -/
theorem InSync.of_sign (hc : isWordChar c = false)
    (hstate : s.state = (interpret (tokens before ++ (Lexer.sign c).toList)).place.state false) :
    InSync (before ++ [c]) s := by
  refine { state := ?_, startPos := ?_ }
  · rw [hstate, lex_append_sign hc]
    rfl
  · rw [lex_append_sign hc]
    exact fun h => absurd rfl h

/-- The word that ends in front of the rest of the line completes the command. -/
theorem InSync.update_save (h : InSync before s) (hw : (lex before).word ≠ [])
    (rest : List UInt8) : (commandOf before).update (before ++ rest)
      ((interpret (lex before).tokens).place.save s.startPos (before.length - 1)) =
        reference before := by
  rw [Place.update_save, h.copyText hw, reference, interpret_tokens hw]
  rfl

/-- A character outside of words where none has been begun. -/
theorem InSync.step_between (h : InSync before s) (rest : List UInt8) (hw : (lex before).word = [])
    (hc : isWordChar c = false) (hright : ¬ Wrong before c last) :
    InSync (before ++ [c]) (scanChar s before.length c last).1 ∧
      (scanChar s before.length c last).2.foldl (Command.update (before ++ c :: rest))
        (commandOf before) = commandOf (before ++ [c]) := by
  have hstate := h.state_nil hw
  have htokens := tokens_of_word_nil hw
  have hcommand : commandOf (before ++ [c]) =
      (interpret ((lex before).tokens ++ (Lexer.sign c).toList)).command := by
    rw [commandOf, lex_append_sign hc, htokens]
  rw [hcommand, commandOf]
  rcases eq_of_isWordChar hc with hspace | hsign
  · have hnone := sign_of_isspace hspace
    rw [scanChar_space hstate hspace]
    refine ⟨of_sign hc ?_, ?_⟩
    · rw [hnone, htokens, hstate, Option.toList_none, List.append_nil]
    · rw [hnone, Option.toList_none, List.append_nil]
      rfl
  · have hplace : (interpret (lex before).tokens).place = .argument := by
      by_contra hne
      exact hright { sign := hsign, word := by rwa [if_pos hw] }
    have hnew : s.state = .new := by rw [hstate, hplace]; rfl
    rcases hsign with rfl | rfl | rfl
    · rw [scanChar_less hnew]
      exact ⟨of_sign hc (by rw [interpret_append]; rfl), by rw [interpret_append]; rfl⟩
    · rw [scanChar_greater hnew]
      exact ⟨of_sign hc (by rw [interpret_append]; rfl), by rw [interpret_append]; rfl⟩
    · rw [scanChar_amp hnew]
      exact ⟨of_sign hc (by rw [interpret_append, hnew]; rfl), by rw [interpret_append]; rfl⟩

/-- A character outside of words that ends one. -/
theorem InSync.step_end (h : InSync before s) (rest : List UInt8) (hw : (lex before).word ≠ [])
    (hc : isWordChar c = false) (hright : ¬ Wrong before c last) :
    (c ≠ ampersand → InSync (before ++ [c]) (scanChar s before.length c last).1) ∧
      (scanChar s before.length c last).2.foldl (Command.update (before ++ c :: rest))
        (commandOf before) = commandOf (before ++ [c]) := by
  have hstate := h.state_cons hw
  have hsave := h.update_save hw (c :: rest)
  have hcommand : commandOf (before ++ [c]) =
      ((Lexer.sign c).toList.foldl Reader.step (interpret (tokens before))).command := by
    rw [commandOf, lex_append_sign hc, interpret_append]
  rw [hcommand]
  rcases eq_of_isWordChar hc with hspace | rfl | rfl | rfl
  · have hnone := sign_of_isspace hspace
    rw [scanChar_space_end hstate hspace, hnone]
    refine ⟨fun _ => of_sign hc ?_, hsave⟩
    rw [hnone, interpret_append, interpret_tokens hw]
    rfl
  · have hplace : (interpret (lex before).tokens).place ≠ .input := fun hinput =>
      hright { sign := .inl rfl, word := by rw [if_neg hw]; exact .inr (.inl ⟨rfl, hinput⟩) }
    rw [scanChar_less_end hstate hplace]
    exact ⟨fun _ => of_sign hc (by rw [interpret_append]; rfl), hsave⟩
  · have hplace : (interpret (lex before).tokens).place ≠ .output := fun houtput =>
      hright { sign := .inr (.inl rfl), word := by
                rw [if_neg hw]
                exact .inr (.inr ⟨rfl, houtput⟩) }
    rw [scanChar_greater_end hstate hplace]
    exact ⟨fun _ => of_sign hc (by rw [interpret_append]; rfl), hsave⟩
  · rw [scanChar_amp_end hstate]
    refine ⟨fun h => absurd rfl h, ?_⟩
    rw [List.foldl_cons, List.foldl_cons, List.foldl_nil, Place.update_setBg, hsave]
    rfl

/-! ## A whole line -/

/-- The scanner and the lexer go on together. -/
theorem InSync.step (h : InSync before s) (hright : ¬ Wrong before c false) :
    InSync (before ++ [c]) (scanChar s before.length c false).1 ∧
      ∀ rest, (scanChar s before.length c false).2.foldl (Command.update (before ++ c :: rest))
        (commandOf before) = commandOf (before ++ [c]) := by
  cases hc : isWordChar c with
  | true =>
    obtain ⟨hsync, hnil⟩ := h.step_word hc
    refine ⟨hsync, fun rest => ?_⟩
    rw [hnil, commandOf, commandOf, lex_append_word hc]
    rfl
  | false =>
    by_cases hw : (lex before).word = []
    · exact ⟨(h.step_between [] hw hc hright).1,
        fun rest => (h.step_between rest hw hc hright).2⟩
    · have hamp : c ≠ ampersand := fun hamp =>
        hright { sign := .inr (.inr hamp), word := by rw [if_neg hw]; exact .inl ⟨hamp, rfl⟩ }
      exact ⟨(h.step_end [] hw hc hright).1 hamp,
        fun rest => (h.step_end rest hw hc hright).2⟩

/-- The last character completes the command. -/
theorem InSync.finish (h : InSync before s) (hright : ¬ Wrong before c true) :
    (scanChar s before.length c true).2.foldl (Command.update (before ++ [c])) (commandOf before) =
      reference (before ++ [c]) := by
  cases hc : isWordChar c with
  | true => exact h.last_word hc
  | false =>
    have hend : reference (before ++ [c]) = commandOf (before ++ [c]) := by
      rw [reference, tokens_of_word_nil (by rw [lex_append_sign hc]), commandOf]
    rw [hend]
    by_cases hw : (lex before).word = []
    · exact (h.step_between [] hw hc hright).2
    · exact (h.step_end [] hw hc hright).2

/-- What the scanner has done in front of the rest of the line. -/
theorem exists_inSync (before : List UInt8)
    (hright : ∀ b c, b ++ [c] <+: before → ¬ Wrong b c false) :
    ∃ s, InSync before s ∧ ∀ rest ≠ [], Command.scanned (before ++ rest) =
      (scan s before.length rest).foldl (Command.update (before ++ rest)) (commandOf before) := by
  induction before using List.reverseRecOn with
  | nil => exact ⟨_, { state := rfl, startPos := fun h => absurd rfl h }, fun rest _ => rfl⟩
  | append_singleton before c ih =>
    obtain ⟨s, hsync, hscan⟩ :=
      ih fun b c' hb => hright b c' (hb.trans (List.prefix_append before [c]))
    obtain ⟨hsync', hupdates⟩ := hsync.step (hright before c (List.prefix_refl _))
    refine ⟨_, hsync', fun rest hrest => ?_⟩
    rw [List.append_assoc, List.singleton_append, hscan _ (List.cons_ne_nil c rest), scan,
      List.isEmpty_eq_false_iff.mpr hrest, List.foldl_append, hupdates, List.length_append]
    rfl

/-- A line without a place where the scanner goes wrong. -/
theorem scanned_eq_reference {line : List UInt8}
    (hright : ∀ before c rest, before ++ c :: rest = line → ¬ Wrong before c rest.isEmpty) :
    Command.scanned line = reference line := by
  rcases line.eq_nil_or_concat with rfl | ⟨before, c, rfl⟩
  · rfl
  · rw [List.concat_eq_append] at hright ⊢
    obtain ⟨s, hsync, hscan⟩ := exists_inSync before fun b c' ⟨r, hr⟩ => by
      have hwrong := hright b c' (r ++ [c]) (by rw [← hr]; simp)
      rwa [List.isEmpty_eq_false_iff.mpr (by simp)] at hwrong
    rw [hscan [c] (List.cons_ne_nil c []), ← hsync.finish (hright before c [] rfl), scan, scan,
      List.append_nil, List.isEmpty_nil]

/-! ## Where the scanner goes wrong -/

theorem mem_copyText {text : List UInt8} {startPos endPos n : Nat} (hstart : startPos ≤ n)
    (hend : n ≤ endPos) (hc : text[n]? = some c) : c ∈ copyText text startPos endPos := by
  refine List.mem_of_getElem? (i := n - startPos) ?_
  rw [copyText, List.getElem?_take_of_lt (by omega), List.getElem?_drop,
    Nat.add_sub_cancel' hstart, hc]

/-- A saved name with a sign in it shows in the command. -/
theorem not_plain_save (place : Place) {line : List UInt8} {q : Command} {startPos endPos : Nat}
    (hc : isWordChar c = false) (hmem : c ∈ copyText line startPos endPos) :
    ¬ Plain (q.update line (place.save startPos endPos)) := by
  intro h
  have hw : ∀ b ∈ copyText line startPos endPos, isWordChar b := by
    cases place with
    | argument => exact h.args _ (List.mem_append_right _ List.mem_cons_self)
    | input => exact h.input _ rfl
    | output => exact h.output _ rfl
  exact Bool.eq_false_iff.mp hc (hw c hmem)

section
variable {place : Place} {i : Nat}

/-- A sign where a name is expected begins the name. -/
theorem scanChar_sign_name (hs : s.state = place.state false) (hplace : place ≠ .argument)
    (hc : isspace c = false) : (scanChar s i c true).2 = [place.save i i] := by
  cases place <;> simp_all [scanChar, Place.state, Place.save]

theorem scanChar_less_name (hs : s.state = Place.input.state true) :
    (scanChar s i lessSign true).2 = [Place.input.save s.startPos i] := by
  simp [scanChar, hs, Place.state, Place.save, show isspace lessSign = false by decide,
    show lessSign ≠ greaterSign by decide, show lessSign ≠ ampersand by decide]

theorem scanChar_greater_name (hs : s.state = Place.output.state true) :
    (scanChar s i greaterSign true).2 = [Place.output.save s.startPos i] := by
  simp [scanChar, hs, Place.state, Place.save, show isspace greaterSign = false by decide,
    show greaterSign ≠ lessSign by decide, show greaterSign ≠ ampersand by decide]

/-- The last character saves the word that it is in or behind. -/
theorem scanChar_save (hs : s.state = place.state true) : ∃ us endPos, i - 1 ≤ endPos ∧
    (scanChar s i c true).2 = us ++ [place.save s.startPos endPos] := by
  cases hc : isWordChar c with
  | true => exact ⟨[], i, Nat.sub_le i 1, by rw [scanChar_word_last hs hc]; rfl⟩
  | false =>
    rcases eq_of_isWordChar hc with hspace | rfl | rfl | rfl
    · exact ⟨[], i - 1, Nat.le_refl _, by rw [scanChar_space_end hs hspace]; rfl⟩
    · by_cases hplace : place = .input
      · subst hplace
        exact ⟨[], i, Nat.sub_le i 1, scanChar_less_name hs⟩
      · exact ⟨[], i - 1, Nat.le_refl _, by rw [scanChar_less_end hs hplace]; rfl⟩
    · by_cases hplace : place = .output
      · subst hplace
        exact ⟨[], i, Nat.sub_le i 1, scanChar_greater_name hs⟩
      · exact ⟨[], i - 1, Nat.le_refl _, by rw [scanChar_greater_end hs hplace]; rfl⟩
    · exact ⟨[.setBg], i - 1, Nat.le_refl _, by rw [scanChar_amp_end hs]; rfl⟩

end

/-- At the first wrong place, or one character behind it, the line could end with a command that
has a sign in a name. -/
theorem exists_not_plain (hright : ∀ b c, b ++ [c] <+: before → ¬ Wrong b c false)
    (hwrong : Wrong before c rest.isEmpty) :
    ∃ t, t <+: before ++ c :: rest ∧ ¬ Plain (Command.scanned t) := by
  obtain ⟨s, hsync, hscan⟩ := exists_inSync before hright
  obtain ⟨hsign, hword⟩ := hwrong
  have hchar : isWordChar c = false ∧ isspace c = false := by
    rcases hsign with rfl | rfl | rfl
    all_goals exact ⟨by decide, by decide⟩
  have hprefix : before ++ [c] <+: before ++ c :: rest :=
    (List.prefix_append_right_inj before).mpr (List.prefix_append [c] rest)
  have hget : (before ++ [c])[before.length]? = some c := by simp
  split at hword
  next hw =>
    refine ⟨before ++ [c], hprefix, ?_⟩
    rw [hscan [c] (List.cons_ne_nil c []), scan, scan, List.append_nil, List.isEmpty_nil,
      scanChar_sign_name (hsync.state_nil hw) hword hchar.2]
    exact not_plain_save _ hchar.1 (mem_copyText (Nat.le_refl _) (Nat.le_refl _) hget)
  next hw =>
    have hstart : s.startPos ≤ before.length := by
      have hlen := hsync.startPos hw
      omega
    have hstate := hsync.state_cons hw
    rcases hword with ⟨rfl, hlast⟩ | ⟨rfl, hplace⟩ | ⟨rfl, hplace⟩
    · obtain ⟨d, rest, rfl⟩ := List.exists_cons_of_ne_nil (List.isEmpty_eq_false_iff.mp hlast)
      obtain ⟨us, endPos, hend, hsave⟩ :=
        scanChar_save (i := before.length + 1) (c := d) hstate
      refine ⟨before ++ [ampersand, d], ?_, ?_⟩
      · exact (List.prefix_append_right_inj before).mpr (List.prefix_append [ampersand, d] rest)
      · rw [hscan _ (List.cons_ne_nil _ _), scan, scan, scan, List.append_nil,
          List.isEmpty_cons, scanChar_amp_end hstate, List.isEmpty_nil, hsave, List.foldl_append,
          List.foldl_append]
        exact not_plain_save _ hchar.1 (mem_copyText hstart hend (by simp))
    · rw [hplace] at hstate
      refine ⟨before ++ [lessSign], hprefix, ?_⟩
      rw [hscan _ (List.cons_ne_nil _ _), scan, scan, List.append_nil, List.isEmpty_nil,
        scanChar_less_name hstate]
      exact not_plain_save .input hchar.1 (mem_copyText hstart (Nat.le_refl _) hget)
    · rw [hplace] at hstate
      refine ⟨before ++ [greaterSign], hprefix, ?_⟩
      rw [hscan _ (List.cons_ne_nil _ _), scan, scan, List.append_nil, List.isEmpty_nil,
        scanChar_greater_name hstate]
      exact not_plain_save .output hchar.1 (mem_copyText hstart (Nat.le_refl _) hget)

/-- The scanner goes wrong nowhere in the line, and its arguments fit into the first block. -/
structure Clean (line : List UInt8) : Prop where
  right : ∀ before c rest, before ++ c :: rest = line → ¬ Wrong before c rest.isEmpty
  few : (reference line).args.length < defaultArgc

/-- The program holds the command of the line after `parseBuffer`. -/
def Agrees (p : Program) (buffer : List UInt8) : Prop :=
  ∃ p', p.parseBuffer buffer = some p' ∧ p'.Shows (reference (cstring buffer))

variable {p : Program} {q q' : Command} {buffer : List UInt8} {lines : List (List UInt8)}

/-- A program holds one command only. -/
theorem Program.Shows.eq (h : p.Shows q) (h' : p.Shows q') : q = q' := by
  have hlen : q.args.length = q'.args.length := h.argc.symm.trans h'.argc
  have hargs : q.args.map Cell.str ++ [.null] = q'.args.map .str ++ [.null] :=
    (List.prefix_of_prefix_length_le h.args h'.args (by simp [hlen])).eq_of_length (by simp [hlen])
  refine Command.ext ?_ (h.input.symm.trans h'.input) (h.output.symm.trans h'.output)
    (h.bg.symm.trans h'.bg)
  exact List.map_injective_iff.mpr (fun _ _ => Cell.str.inj) (List.append_cancel_right hargs)

theorem Agrees.scanned_eq (h : p.Holds .empty) (hagrees : Agrees p buffer) :
    Command.scanned (cstring buffer) = reference (cstring buffer) ∧
      argumentCount buffer < defaultArgc := by
  obtain ⟨p', hp', hshows⟩ := hagrees
  by_cases hcount : argumentCount buffer < defaultArgc
  · obtain ⟨p₁, hp₁, h₁⟩ := h.parseBuffer hcount
    obtain rfl := Option.some.inj (hp₁.symm.trans hp')
    exact ⟨h₁.toShows.eq hshows, hcount⟩
  · rw [h.parseBuffer_eq_none (Nat.le_of_not_lt hcount)] at hp'
    contradiction

theorem Clean.agrees (h : p.Holds .empty) (hclean : Clean (cstring buffer)) :
    Agrees p buffer := by
  have hscanned := scanned_eq_reference hclean.right
  have hcount : argumentCount buffer < defaultArgc := by
    rw [← Command.args_scanned, hscanned]
    exact hclean.few
  obtain ⟨p', hp', h'⟩ := h.parseBuffer hcount
  exact ⟨p', hp', hscanned ▸ h'.toShows⟩

/-- A beginning of a line in which the scanner goes wrong is a line that it reads wrong. -/
theorem Wrong.exists_not_plain {line : List UInt8} (hline : before ++ c :: rest = line)
    (hwrong : Wrong before c rest.isEmpty) :
    ∃ t, t <+: line ∧ ¬ Plain (Command.scanned t) := by
  induction hn : before.length using Nat.strong_induction_on generalizing before c rest with
  | _ n ih =>
    by_cases hright : ∀ b c', b ++ [c'] <+: before → ¬ Wrong b c' false
    · exact hline ▸ Shell.exists_not_plain hright hwrong
    · obtain ⟨b, c', ⟨r, hr⟩, hwrong'⟩ : ∃ b c', b ++ [c'] <+: before ∧ Wrong b c' false := by
        simpa using hright
      have hlt : b.length < n := by
        rw [← hn, ← hr]
        simp
      have hline' : b ++ c' :: (r ++ c :: rest) = line := by
        rw [← hline, ← hr]
        simp
      exact ih b.length hlt hline' (by rwa [List.isEmpty_eq_false_iff.mpr (by simp)]) rfl

/-- From the program that the lines before have left, `parseBuffer` reads a clean line as the
command that it stands for, and some beginning of any other line it does not. -/
theorem parseBuffer_agrees (hrun : Program.init.execLines lines = some p) :
    (Clean (cstring buffer) → Agrees p buffer) ∧
      (¬ Clean (cstring buffer) → ∃ t, t <+: cstring buffer ∧ ¬ Agrees p t) := by
  have hholds := Program.init_holds.of_execLines hrun
  refine ⟨fun hclean => hclean.agrees hholds, fun hclean => ?_⟩
  by_cases hright : ∀ before c rest, before ++ c :: rest = cstring buffer →
    ¬ Wrong before c rest.isEmpty
  · have hprefix := List.prefix_refl (cstring buffer)
    refine ⟨cstring buffer, hprefix, fun hagrees => hclean { right := hright, few := ?_ }⟩
    obtain ⟨hscanned, hcount⟩ := hagrees.scanned_eq hholds
    rwa [← Command.args_scanned, hscanned, cstring_isPrefix hprefix] at hcount
  · obtain ⟨before, c, rest, hline, hwrong⟩ : ∃ before c rest,
        before ++ c :: rest = cstring buffer ∧ Wrong before c rest.isEmpty := by
      simpa using hright
    obtain ⟨t, ht, hplain⟩ := hwrong.exists_not_plain hline
    refine ⟨t, ht, fun hagrees => hplain ?_⟩
    have hscanned := (hagrees.scanned_eq hholds).1
    rw [cstring_isPrefix ht] at hscanned
    exact hscanned ▸ reference_plain t

/-- The characters of a line can be tried one by one. -/
theorem right_of_forall {line : List UInt8} (h : ∀ n : Fin line.length,
      ¬ Wrong (line.take n) (line.get n) (line.drop (n + 1)).isEmpty) (before : List UInt8) (c : UInt8)
    (rest : List UInt8) (hline : before ++ c :: rest = line) : ¬ Wrong before c rest.isEmpty := by
  subst hline
  simpa using h ⟨before.length, by simp⟩

/-- A second line `ls <in >out` after a first line `ls -l`. -/
theorem parseBuffer_agrees_redirected : ∃ p,
    Program.init.execLines [[108, 115, 32, 45, 108, 0]] = some p ∧
      Agrees p [108, 115, 32, 60, 105, 110, 32, 62, 111, 117, 116, 0] := by
  obtain ⟨p, hp⟩ : ∃ p, Program.init.execLines [[108, 115, 32, 45, 108, 0]] = some p :=
    ⟨_, rfl⟩
  exact ⟨p, hp, (parseBuffer_agrees hp).1 ⟨right_of_forall (by decide), by decide⟩⟩

/-- `ls& `, of which `parseBuffer` makes the arguments `ls` and `ls&`. -/
theorem parseBuffer_word_amp : ¬ Agrees Program.init [108, 115, 38, 32, 0] := by
  rintro ⟨p, hp, hshows⟩
  have hargc : (Program.init.parseBuffer [108, 115, 38, 32, 0]).map Program.argc = some 2 := by
    decide
  rw [hp, Option.map_some, hshows.argc] at hargc
  revert hargc
  decide

end Shell
