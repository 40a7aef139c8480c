import FitProjects.POS.ShellProgram
import FitProjects.Lib.Runs

/-! # Words and signs of a line

The command of a line as a shell is expected to read it: words are maximal runs of characters
other than white space, `<`, `>` and `&`, a word that follows `<` or `>` names a file, every other
word is an argument. -/

namespace Shell

/-- The characters that words are made of. -/
def isWordChar (c : UInt8) : Bool :=
  !isspace c && c != lessSign && c != greaterSign && c != ampersand

inductive Token
  | word (text : List UInt8)
  | less
  | greater
  | amp
  deriving DecidableEq

/-- The tokens read so far and the word that has been begun behind them. -/
structure Lexer where
  tokens : List Token
  word : List UInt8
  deriving DecidableEq

namespace Lexer

/-- The tokens when the word ends here. -/
def flush (l : Lexer) : List Token := if l.word = [] then l.tokens else l.tokens ++ [.word l.word]

/-- The token of a character outside of words. -/
def sign (c : UInt8) : Option Token :=
  if c = lessSign then some .less
  else if c = greaterSign then some .greater
  else if c = ampersand then some .amp
  else none

def step (l : Lexer) (c : UInt8) : Lexer :=
  if isWordChar c then { l with word := l.word ++ [c] }
  else { tokens := l.flush ++ (sign c).toList, word := [] }

end Lexer

def lex (line : List UInt8) : Lexer := line.foldl Lexer.step { tokens := [], word := [] }

/-- The tokens of a line. -/
def tokens (line : List UInt8) : List Token := (lex line).flush

/-- What the next word is. -/
inductive Place
  | argument
  | input
  | output
  deriving DecidableEq

structure Reader where
  place : Place
  command : Command

namespace Reader

def init : Reader where
  place := .argument
  command := .empty

def word (r : Reader) (w : List UInt8) : Command :=
  match r.place with
  | .argument => { r.command with args := r.command.args ++ [w] }
  | .input => { r.command with input := some w }
  | .output => { r.command with output := some w }

def step (r : Reader) : Token → Reader
  | .word w => { place := .argument, command := r.word w }
  | .less => { r with place := .input }
  | .greater => { r with place := .output }
  | .amp => { place := .argument, command := { r.command with bg := true } }

end Reader

def interpret (ts : List Token) : Reader := ts.foldl Reader.step .init

/-- The command that a line stands for. -/
def reference (line : List UInt8) : Command := (interpret (tokens line)).command

/-- The words of the tokens. -/
def Token.word? : Token → Option (List UInt8)
  | .word w => some w
  | _ => none

@[simp] theorem lex_nil : lex [] = { tokens := [], word := [] } := rfl

theorem lex_append_singleton (line : List UInt8) (c : UInt8) :
    lex (line ++ [c]) = (lex line).step c := by
  rw [lex, List.foldl_append]
  rfl

@[simp] theorem interpret_append (ts ts' : List Token) :
    interpret (ts ++ ts') = ts'.foldl Reader.step (interpret ts) := List.foldl_append

theorem Lexer.words_flush {l : Lexer} (hl : ∀ c ∈ l.word, isWordChar c) :
    l.flush.filterMap Token.word? = l.tokens.filterMap Token.word? ++ runs isWordChar l.word := by
  rw [flush]
  split
  next hw => simp [hw]
  next hw =>
    rw [runs.of_forall hw hl, List.filterMap_append]
    rfl

theorem Lexer.words_sign (c : UInt8) : (sign c).toList.filterMap Token.word? = [] := by
  rw [sign]
  repeat' split
  all_goals rfl

theorem Lexer.words_foldl {l : Lexer} (hl : ∀ c ∈ l.word, isWordChar c) (rest : List UInt8) :
    (rest.foldl step l).flush.filterMap Token.word? =
      l.tokens.filterMap Token.word? ++ runs isWordChar (l.word ++ rest) := by
  induction rest generalizing l with
  | nil => rw [List.foldl_nil, words_flush hl, List.append_nil]
  | cons c rest ih =>
    rw [List.foldl_cons, step]
    by_cases hc : isWordChar c
    · rw [if_pos hc, ih]
      · rw [List.append_assoc, List.singleton_append]
      · intro b hb
        rcases List.mem_append.mp hb with hb | hb
        · exact hl b hb
        · rwa [List.mem_singleton.mp hb]
    · rw [if_neg hc, ih (List.forall_mem_nil _), List.filterMap_append, words_sign,
        words_flush hl, runs.append_cons (Bool.eq_false_iff.mpr hc)]
      simp

/-- The words are the maximal runs of word characters. -/
theorem words_tokens (line : List UInt8) :
    (tokens line).filterMap Token.word? = runs isWordChar line :=
  Lexer.words_foldl (l := { tokens := [], word := [] }) (List.forall_mem_nil _) line

theorem Lexer.amp_mem_flush {l : Lexer} : Token.amp ∈ l.flush ↔ Token.amp ∈ l.tokens := by
  rw [flush]
  split <;> simp

theorem Lexer.amp_mem_sign {c : UInt8} : Token.amp ∈ (sign c).toList ↔ ampersand = c := by
  rw [sign]
  split_ifs with hless hgreater hamp
  · simp [hless, show ampersand ≠ lessSign by decide]
  · simp [hgreater, show ampersand ≠ greaterSign by decide]
  · simp [hamp]
  · simp [Ne.symm hamp]

theorem Lexer.amp_mem_foldl {l : Lexer} (rest : List UInt8) :
    Token.amp ∈ (rest.foldl step l).flush ↔ Token.amp ∈ l.tokens ∨ ampersand ∈ rest := by
  induction rest generalizing l with
  | nil => simp [amp_mem_flush]
  | cons c rest ih =>
    rw [List.foldl_cons, ih, step, List.mem_cons]
    split
    next hc =>
      have hne : ¬ampersand = c := by
        rintro rfl
        exact absurd hc (by decide)
      simp [hne]
    next => rw [List.mem_append, amp_mem_flush, amp_mem_sign, or_assoc]

theorem bg_foldl (r : Reader) (ts : List Token) :
    (ts.foldl Reader.step r).command.bg ↔ r.command.bg ∨ Token.amp ∈ ts := by
  induction ts generalizing r with
  | nil => simp
  | cons t ts ih =>
    rw [List.foldl_cons, ih, List.mem_cons]
    cases t with
    | word w => cases hplace : r.place <;> simp [Reader.step, Reader.word, hplace]
    | less => simp [Reader.step]
    | greater => simp [Reader.step]
    | amp => simp [Reader.step]

/-- The command runs in the background exactly when `&` occurs. -/
theorem reference_bg (line : List UInt8) : (reference line).bg ↔ ampersand ∈ line := by
  rw [reference, interpret, bg_foldl, tokens, lex, Lexer.amp_mem_foldl]
  simp [Reader.init, Command.empty]

/-- No name of the command has white space or a sign in it. -/
structure Plain (q : Command) : Prop where
  args : ∀ w ∈ q.args, ∀ c ∈ w, isWordChar c
  input : ∀ w ∈ q.input, ∀ c ∈ w, isWordChar c
  output : ∀ w ∈ q.output, ∀ c ∈ w, isWordChar c

theorem Plain.word {r : Reader} (h : Plain r.command) {w : List UInt8}
    (hw : ∀ c ∈ w, isWordChar c) : Plain (r.word w) := by
  rw [Reader.word]
  split
  next =>
    refine { h with args := fun v hv => ?_ }
    rcases List.mem_append.mp hv with hv | hv
    · exact h.args v hv
    · rwa [List.mem_singleton.mp hv]
  next => exact { h with input := fun v hv => by rwa [← Option.some.inj hv] }
  next => exact { h with output := fun v hv => by rwa [← Option.some.inj hv] }

theorem Plain.foldl {r : Reader} (h : Plain r.command) {ts : List Token}
    (hts : ∀ w ∈ ts.filterMap Token.word?, ∀ c ∈ w, isWordChar c) :
    Plain (ts.foldl Reader.step r).command := by
  induction ts generalizing r with
  | nil => exact h
  | cons t ts ih =>
    cases t with
    | word w =>
      obtain ⟨hw, hts⟩ := List.forall_mem_cons.mp hts
      exact ih (h.word hw) hts
    | less => exact ih h hts
    | greater => exact ih h hts
    | amp => exact ih { h with } hts

theorem reference_plain (line : List UInt8) : Plain (reference line) := by
  refine Plain.foldl (r := .init) ?_ fun w hw => ?_
  · exact { args := List.forall_mem_nil _, input := by simp [Reader.init, Command.empty],
            output := by simp [Reader.init, Command.empty] }
  · rw [words_tokens] at hw
    exact (runs.of_mem hw).2

end Shell
