import FitProjects.IPP.HeaderParser

/-! # The tokens of a function header

`Tokenize` of `IPP/2.CHA/Function.py`. White space goes into the token of the word before it, or of
the word or special character behind it. What holds after every character is `Inv`: the tokens and
the pending word make up the text so far, and `Pending` says how the flag `space` and the shape of
the pending word belong together. -/

namespace Tokenizer

open HeaderParser (isSpace)

local instance lawfulBEqChar : LawfulBEq Char := inferInstance

/-- `['(',')','*',',','[',']']`. -/
def singles : List Char := ['(', ')', '*', ',', '[', ']']

/-- `str.isspace` of a whole string. -/
def isSpaces (word : List Char) : Bool := !word.isEmpty && word.all isSpace

structure State where
  tokens : List (List Char)
  word : List Char
  space : Bool

/-- One round of the loop of `Tokenize`. -/
def step (s : State) (c : Char) : State :=
  if isSpace c then { s with word := s.word ++ [c], space := true }
  else if s.space && !s.word.isEmpty && !isSpace c then
    if isSpaces s.word && !singles.contains c then { s with word := s.word ++ [c], space := false }
    else
      let s := if !isSpaces s.word then { s with tokens := s.tokens ++ [s.word], word := [] } else s
      if singles.contains c then
        let c := if isSpaces s.word then s.word ++ [c] else [c]
        { tokens := s.tokens ++ [c], word := [], space := false }
      else
        let tokens := if !s.word.isEmpty then s.tokens ++ [s.word] else s.tokens
        { tokens, word := [c], space := false }
  else if !s.word.isEmpty && singles.contains c then
    { s with tokens := s.tokens ++ [s.word, [c]], word := [] }
  else if singles.contains c then { s with tokens := s.tokens ++ [[c]] }
  else { s with word := s.word ++ [c] }

/-- The loop of `Tokenize` over the first characters of a header. -/
def loop (processed : List Char) : State :=
  processed.foldl step { tokens := [], word := [], space := false }

/-- `Tokenize`: the tokens, and `lenTokens`. -/
def tokenize (header : List Char) : List (List Char) × Nat :=
  let s := loop header
  (s.tokens, s.tokens.length)

/-- Neither white space nor a special character. -/
def isRun (c : Char) : Bool := !isSpace c && !singles.contains c

/-- A token between the text before and behind it: optional white space and one special character,
or optional white space, a maximal run and optional white space. -/
inductive Token (before : List Char) : List Char → List Char → Prop
  | single (hwhite : ∀ d ∈ white, isSpace d) (hc : c ∈ singles) :
    Token before (white ++ [c]) after
  | run (hwhite : ∀ d ∈ white, isSpace d) (hrun : ∀ d ∈ run, isRun d) (hne : run ≠ [])
    (hwhite' : ∀ d ∈ white', isSpace d) (hleft : ∀ d ∈ (before ++ white).getLast?, ¬ isRun d)
    (hright : ∀ d ∈ (white' ++ after).head?, ¬ isRun d) :
    Token before (white ++ run ++ white') after

/-- The tokens fit into every text that goes on behind them. -/
def Tokens (before : List Char) : List (List Char) → Prop
  | [] => True
  | token :: tokens =>
    (∀ rest, Token before token (tokens.flatten ++ rest)) ∧ Tokens (before ++ token) tokens

/-- The pending word behind the tokens, and the flag `space`. -/
inductive Pending (before : List Char) : List Char → Bool → Prop
  | empty (hleft : ∀ d ∈ before.getLast?, ¬ isRun d) : Pending before [] false
  | white (hwhite : ∀ d ∈ white, isSpace d) (hne : white ≠ []) : Pending before white true
  | run (hwhite : ∀ d ∈ white, isSpace d) (hrun : ∀ d ∈ run, isRun d) (hne : run ≠ [])
    (hleft : ∀ d ∈ (before ++ white).getLast?, ¬ isRun d) : Pending before (white ++ run) false
  | spaced (hwhite : ∀ d ∈ white, isSpace d) (hrun : ∀ d ∈ run, isRun d) (hne : run ≠ [])
    (hleft : ∀ d ∈ (before ++ white).getLast?, ¬ isRun d) (hwhite' : ∀ d ∈ white', isSpace d)
    (hne' : white' ≠ []) : Pending before (white ++ run ++ white') true

structure Inv (processed : List Char) (s : State) : Prop where
  lossless : s.tokens.flatten ++ s.word = processed
  tokens : Tokens [] s.tokens
  pending : Pending s.tokens.flatten s.word s.space

theorem isRun_of_not {c : Char} (hspace : ¬ isSpace c) (hsingle : c ∉ singles) : isRun c := by
  simp [isRun, hspace, hsingle]

theorem not_isRun_of_isSpace {c : Char} (h : isSpace c) : ¬ isRun c := by simp [isRun, h]

theorem not_isRun_of_mem {c : Char} (h : c ∈ singles) : ¬ isRun c := by simp [isRun, h]

theorem not_isSpace_of_isRun {c : Char} (h : isRun c) : ¬ isSpace c := by
  simp_all [isRun]

theorem Tokens.append {before : List Char} {l m : List (List Char)} (hl : Tokens before l)
    (hm : Tokens (before ++ l.flatten) m) : Tokens before (l ++ m) := by
  induction l generalizing before with
  | nil => simpa using hm
  | cons token l ih =>
    refine ⟨fun rest => ?_, ih hl.2 (by simpa using hm)⟩
    simpa using hl.1 (m.flatten ++ rest)

theorem Tokens.token {before token : List Char} {pre post : List (List Char)}
    (h : Tokens before (pre ++ token :: post)) (rest : List Char) :
    Token (before ++ pre.flatten) token (post.flatten ++ rest) := by
  induction pre generalizing before with
  | nil => simpa using h.1 rest
  | cons t pre ih => simpa using ih h.2

/-! ## One character -/

variable {before white run white' : List Char} {tokens : List (List Char)} {c : Char}

@[simp] theorem isSpaces_nil : isSpaces [] = false := rfl

theorem isSpaces_white (hwhite : ∀ d ∈ white, isSpace d) (hne : white ≠ []) :
    isSpaces white = true := by
  simpa [isSpaces, hne] using hwhite

theorem isSpaces_run (hrun : ∀ d ∈ run, isRun d) (hne : run ≠ []) (white white' : List Char) :
    isSpaces (white ++ (run ++ white')) = false := by
  obtain ⟨d, hd⟩ := List.exists_mem_of_ne_nil run hne
  have hnot := not_isSpace_of_isRun (hrun d hd)
  rw [isSpaces, Bool.and_eq_false_iff]
  refine .inr (List.all_eq_false.mpr ⟨d, ?_, hnot⟩)
  simp [hd]

theorem forall_mem_concat {p : Char → Prop} (h : ∀ d ∈ white, p d) (hc : p c) :
    ∀ d ∈ white ++ [c], p d := by
  intro d hd
  rcases List.mem_append.mp hd |>.imp_right List.mem_singleton.mp with hd | rfl
  · exact h d hd
  · exact hc

/-- The last character of a text that ends in `c`. -/
theorem forall_getLast_concat (hc : ¬ isRun c) (text : List Char) :
    ∀ d ∈ (text ++ [c]).getLast?, ¬ isRun d := by
  simpa using hc

/-- White space is added to the pending word. -/
theorem Pending.concat (h : Pending before word space) (hc : isSpace c) :
    Pending before (word ++ [c]) true := by
  have hsingle : ∀ d ∈ [c], isSpace d := by simpa using hc
  cases h with
  | empty hleft => exact .white hsingle (by simp)
  | white hwhite hne => exact .white (forall_mem_concat hwhite hc) (by simp)
  | run hwhite hrun hne hleft => exact .spaced hwhite hrun hne hleft hsingle (by simp)
  | spaced hwhite hrun hne hleft hwhite' hne' =>
    rw [List.append_assoc]
    exact .spaced hwhite hrun hne hleft (forall_mem_concat hwhite' hc) (by simp)

/-- After a special character the pending word is empty. -/
theorem Pending.afterSingle (hc : c ∈ singles) (text : List Char) :
    Pending (text ++ [c]) [] false :=
  .empty (forall_getLast_concat (not_isRun_of_mem hc) text)

/-- No run goes on behind white space. -/
theorem outside_white (hwhite : ∀ d ∈ white, isSpace d) (hne : white ≠ []) {text : List Char} :
    ∀ d ∈ (text ++ white).getLast?, ¬ isRun d := by
  obtain ⟨spaces, d, rfl⟩ := (List.eq_nil_or_concat white).resolve_left hne
  rw [List.concat_eq_append, ← List.append_assoc]
  exact forall_getLast_concat (not_isRun_of_isSpace (hwhite d (by simp))) _

/-- A new word behind a token that ends in white space. -/
theorem Pending.afterSpaces (hwhite' : ∀ d ∈ white', isSpace d) (hne' : white' ≠ [])
    (hc : isRun c) (text : List Char) : Pending (text ++ white') [c] false := by
  have hleft : ∀ d ∈ (text ++ white').getLast?, ¬ isRun d := outside_white hwhite' hne'
  have h : Pending (text ++ white') ([] ++ [c]) false :=
    .run (List.forall_mem_nil _) (by simpa using hc) (by simp) (by simpa using hleft)
  exact h

theorem Token.char (hc : c ∈ singles) (before after : List Char) : Token before [c] after := by
  have h : Token before ([] ++ [c]) after := .single (List.forall_mem_nil _) hc
  exact h

/-- The token of a word that ends in white space, or that a special character ends. -/
theorem Token.ofPending (hwhite : ∀ d ∈ white, isSpace d) (hrun : ∀ d ∈ run, isRun d)
    (hne : run ≠ []) (hleft : ∀ d ∈ (before ++ white).getLast?, ¬ isRun d)
    (hwhite' : ∀ d ∈ white', isSpace d) {after : List Char}
    (hafter : white' = [] → ∀ d ∈ after.head?, ¬ isRun d) :
    Token before (white ++ run ++ white') after := by
  refine .run hwhite hrun hne hwhite' hleft ?_
  cases white' with
  | nil => exact hafter rfl
  | cons d spaces => simpa using not_isRun_of_isSpace (hwhite' d (by simp))

/-- A special character ends the pending word, and is a token of its own unless the word is white
space. -/
theorem Inv.stepSingle (h : Inv processed s) (hspace : ¬ isSpace c) (hsingle : c ∈ singles) :
    Inv (processed ++ [c]) (step s c) := by
  obtain ⟨tokens, word, space⟩ := s
  obtain ⟨hlossless, htokens, hpending⟩ := h
  simp only at hlossless htokens hpending
  subst hlossless
  cases hpending with
  | empty hleft =>
    have hstep : Tokenizer.step ⟨tokens, [], false⟩ c = ⟨tokens ++ [[c]], [], false⟩ := by
      simp [Tokenizer.step, hspace, hsingle]
    have hnew : Tokens tokens.flatten [[c]] := ⟨Token.char hsingle _, trivial⟩
    rw [hstep]
    exact ⟨by simp, htokens.append hnew, by simpa using Pending.afterSingle hsingle tokens.flatten⟩
  | white hwhite hne =>
    have hstep : Tokenizer.step ⟨tokens, word, true⟩ c = ⟨tokens ++ [word ++ [c]], [], false⟩ := by
      simp [Tokenizer.step, hspace, hsingle, hne, isSpaces_white hwhite hne]
    have hnew : Tokens tokens.flatten [word ++ [c]] := ⟨fun rest => .single hwhite hsingle, trivial⟩
    rw [hstep]
    refine ⟨by simp, htokens.append hnew, ?_⟩
    simpa using Pending.afterSingle hsingle (tokens.flatten ++ word)
  | @run white run hwhite hrun hne hleft =>
    have hstep : Tokenizer.step ⟨tokens, white ++ run, false⟩ c =
        ⟨tokens ++ [white ++ run, [c]], [], false⟩ := by
      simp [Tokenizer.step, hspace, hsingle, hne]
    have hnew : Tokens tokens.flatten [white ++ run, [c]] := by
      refine ⟨fun rest => ?_, Token.char hsingle _, trivial⟩
      have htoken : Token tokens.flatten (white ++ run ++ []) ([c] ++ rest) :=
        .ofPending hwhite hrun hne hleft (List.forall_mem_nil _)
          fun _ => by simpa using not_isRun_of_mem hsingle
      simpa using htoken
    rw [hstep]
    refine ⟨by simp, htokens.append hnew, ?_⟩
    simpa using Pending.afterSingle hsingle (tokens.flatten ++ (white ++ run))
  | @spaced white run white' hwhite hrun hne hleft hwhite' hne' =>
    have hstep : Tokenizer.step ⟨tokens, white ++ run ++ white', true⟩ c =
        ⟨tokens ++ [white ++ run ++ white', [c]], [], false⟩ := by
      simp [Tokenizer.step, hspace, hsingle, hne, isSpaces_run hrun hne]
    have hnew : Tokens tokens.flatten [white ++ run ++ white', [c]] :=
      ⟨fun rest => .ofPending hwhite hrun hne hleft hwhite' fun h => absurd h hne',
        Token.char hsingle _, trivial⟩
    rw [hstep]
    refine ⟨by simp, htokens.append hnew, ?_⟩
    simpa using Pending.afterSingle hsingle (tokens.flatten ++ (white ++ run ++ white'))

/-- Another character goes into the pending word unless white space follows its run. -/
theorem Inv.stepRun (h : Inv processed s) (hspace : ¬ isSpace c) (hsingle : c ∉ singles) :
    Inv (processed ++ [c]) (step s c) := by
  obtain ⟨tokens, word, space⟩ := s
  obtain ⟨hlossless, htokens, hpending⟩ := h
  simp only at hlossless htokens hpending
  subst hlossless
  have hc := isRun_of_not hspace hsingle
  cases hpending with
  | empty hleft =>
    have hstep : Tokenizer.step ⟨tokens, [], false⟩ c = ⟨tokens, [c], false⟩ := by
      simp [Tokenizer.step, hspace, hsingle]
    have hword : Pending tokens.flatten ([] ++ [c]) false :=
      .run (List.forall_mem_nil _) (by simpa using hc) (by simp) (by simpa using hleft)
    rw [hstep]
    exact ⟨by simp, htokens, hword⟩
  | white hwhite hne =>
    have hstep : Tokenizer.step ⟨tokens, word, true⟩ c = ⟨tokens, word ++ [c], false⟩ := by
      simp [Tokenizer.step, hspace, hsingle, hne, isSpaces_white hwhite hne]
    rw [hstep]
    exact ⟨by simp, htokens, .run hwhite (by simpa using hc) (by simp) (outside_white hwhite hne)⟩
  | @run white run hwhite hrun hne hleft =>
    have hstep : Tokenizer.step ⟨tokens, white ++ run, false⟩ c =
        ⟨tokens, white ++ run ++ [c], false⟩ := by
      simp [Tokenizer.step, hspace, hsingle]
    have hword : Pending tokens.flatten (white ++ (run ++ [c])) false :=
      .run hwhite (forall_mem_concat hrun hc) (by simp) hleft
    rw [hstep]
    exact ⟨by simp, htokens, by simpa using hword⟩
  | @spaced white run white' hwhite hrun hne hleft hwhite' hne' =>
    have hstep : Tokenizer.step ⟨tokens, white ++ run ++ white', true⟩ c =
        ⟨tokens ++ [white ++ run ++ white'], [c], false⟩ := by
      simp [Tokenizer.step, hspace, hsingle, hne, isSpaces_run hrun hne]
    have hnew : Tokens tokens.flatten [white ++ run ++ white'] :=
      ⟨fun rest => .ofPending hwhite hrun hne hleft hwhite' fun h => absurd h hne', trivial⟩
    have hword : Pending (tokens.flatten ++ white ++ run ++ white') [c] false :=
      .afterSpaces hwhite' hne' hc _
    rw [hstep]
    exact ⟨by simp, htokens.append hnew, by simpa using hword⟩

theorem Inv.step (h : Inv processed s) (c : Char) : Inv (processed ++ [c]) (step s c) := by
  by_cases hspace : isSpace c
  · have hstep : Tokenizer.step s c = { s with word := s.word ++ [c], space := true } := by
      simp [Tokenizer.step, hspace]
    rw [hstep]
    exact ⟨by simp [← h.lossless], h.tokens, h.pending.concat hspace⟩
  by_cases hsingle : c ∈ singles
  · exact h.stepSingle hspace hsingle
  · exact h.stepRun hspace hsingle

theorem Inv.loop (processed : List Char) : Inv processed (loop processed) := by
  induction processed using List.reverseRecOn with
  | nil => exact ⟨rfl, trivial, .empty fun d hd => nomatch hd⟩
  | append_singleton processed c ih =>
    rw [Tokenizer.loop, List.foldl_append]
    exact ih.step c

/-- After any number of rounds the tokens and the pending word are the text read so far, and every
token is well formed, with a run that is maximal in the whole header. -/
theorem tokenize_lossless (header : List Char) (n : Nat) :
    (loop (header.take n)).tokens.flatten ++ (loop (header.take n)).word = header.take n ∧
      ∀ pre token post, (loop (header.take n)).tokens = pre ++ token :: post →
        Token pre.flatten token
          (post.flatten ++ ((loop (header.take n)).word ++ header.drop n)) := by
  have h := Inv.loop (header.take n)
  refine ⟨h.lossless, fun pre token post heq => ?_⟩
  have htokens := h.tokens
  rw [heq] at htokens
  simpa using htokens.token ((loop (header.take n)).word ++ header.drop n)

example : tokenize "int *a [ ]".toList =
    (["int ".toList, "*".toList, "a ".toList, "[".toList, " ]".toList], 5) := by decide

end Tokenizer
