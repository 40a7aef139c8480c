import FitProjects.Lib.CText

/-! # The comments that the C analyzer finds

`FindComments` and `GetCommentsCount` of `IPP/1.CST/CAnalyzer.php`. The bytes of the text are the
elements of `chars`. The test of the last character against `'\n'` in single quotes, which are two
characters in PHP, is always true. -/

namespace CAnalyzer

inductive State
  | start
  | backslash
  | lineComment
  | blockComment
  | blockEndM
  | string
  deriving DecidableEq

/-- The variables of `FindComments`; `range1` is `none` as long as `$range[1]` is not set. -/
structure Analyzer where
  state : State
  charEnd : Char
  range0 : Nat
  range1 : Option Nat
  modified : List Char
  comments : List (Nat × Nat)
  strings : List (Nat × Nat)

/-- The variables before the loop. -/
def Analyzer.initial : Analyzer :=
  { state := .start, charEnd := ' ', range0 := 0, range1 := none,
    modified := [], comments := [], strings := [] }

namespace Analyzer

/-- `$range[1] = $index; array_push($this->comments,$range); $state = self::S_START`. -/
def pushComment (index : Nat) (a : Analyzer) : Analyzer :=
  { a with
    range1 := some index, comments := a.comments ++ [(a.range0, index)], state := .start }

/-- The same for a literal, whose end is kept. -/
def pushString (index : Nat) (char : Char) (a : Analyzer) : Analyzer :=
  { a with
    range1 := some index, strings := a.strings ++ [(a.range0, index)], state := .start
    modified := a.modified ++ [char] }

/-- The body of the loop; `prev` is `$chars[$index-1]`. `continue` leaves the `switch`. -/
def step (prev : Option Char) (index : Nat) (char : Char) (a : Analyzer) : Analyzer :=
  match a.state with
  | .start =>
    if char = '/' then { a with state := .backslash, range0 := index, range1 := none }
    else if char = '"' ∨ char = '\'' then
      { a with
        charEnd := char, range0 := index, range1 := none, state := .string
        modified := a.modified ++ [char] }
    else { a with modified := a.modified ++ [char] }
  | .backslash =>
    if char = '/' then { a with state := .lineComment }
    else if char = '*' then { a with state := .blockComment }
    else { a with modified := a.modified ++ ['/', char], state := .start }
  | .lineComment =>
    if char = '\n' then
      if prev = some '\\' then a else a.pushComment index
    else a
  | .blockComment => if char = '*' then { a with state := .blockEndM } else a
  | .blockEndM =>
    if char = '/' then a.pushComment index
    else if char = '*' then a
    else { a with state := .blockComment }
  | .string =>
    if (a.charEnd = '"' ∧ char = '"' ∧ prev ≠ some '\\') ∨ (char = '\'' ∧ a.charEnd = '\'') then
      a.pushString index char
    else a

/-- The loop over the rest of the characters. -/
def loop (prev : Option Char) (index : Nat) (a : Analyzer) : List Char → Analyzer
  | [] => a
  | char :: chars => loop (some char) (index + 1) (a.step prev index char) chars

/-- What comes after the loop. -/
def finish (index : Nat) (a : Analyzer) : Analyzer :=
  if a.range1.isNone then
    let a := { a with range1 := some index }
    match a.state with
    | .lineComment => { a with comments := a.comments ++ [(a.range0, index)] }
    | .string => { a with strings := a.strings ++ [(a.range0, index)] }
    | _ => a
  else a

/-- `GetCommentsCount`. -/
def getCommentsCount (a : Analyzer) : Nat :=
  a.comments.foldl (fun count range => count + (range.2 - range.1 + 1)) 0

end Analyzer

/-- `FindComments`. -/
def findComments (chars : List Char) : Analyzer :=
  (Analyzer.initial.loop none 0 chars).finish (chars.length - 1)

open CText Analyzer

/-! ## Comments and literals -/

variable {a : Analyzer} {prev : Option Char} {p q : Char} {index last : Nat}
  {body rest text : List Char} {ps : List Piece}

section step
variable {c : Char}

theorem step_start (hstate : a.state = .start) : a.step prev index c =
    if c = '/' then { a with state := .backslash, range0 := index, range1 := none }
    else if c = '"' ∨ c = '\'' then
      { a with
        charEnd := c, range0 := index, range1 := none, state := .string
        modified := a.modified ++ [c] }
    else { a with modified := a.modified ++ [c] } := by
  rw [step, hstate]

theorem step_backslash (hstate : a.state = .backslash) : a.step prev index c =
    if c = '/' then { a with state := .lineComment }
    else if c = '*' then { a with state := .blockComment }
    else { a with modified := a.modified ++ ['/', c], state := .start } := by
  rw [step, hstate]

theorem step_lineComment (hstate : a.state = .lineComment) : a.step prev index c =
    if c = '\n' then if prev = some '\\' then a else a.pushComment index else a := by
  rw [step, hstate]

theorem step_blockComment (hstate : a.state = .blockComment) : a.step prev index c =
    if c = '*' then { a with state := .blockEndM } else a := by
  rw [step, hstate]

theorem step_blockEndM (hstate : a.state = .blockEndM) : a.step prev index c =
    if c = '/' then a.pushComment index
    else if c = '*' then a else { a with state := .blockComment } := by
  rw [step, hstate]

theorem step_string (hstate : a.state = .string) : a.step prev index c =
    if (a.charEnd = '"' ∧ c = '"' ∧ prev ≠ some '\\') ∨ (c = '\'' ∧ a.charEnd = '\'') then
      a.pushString index c else a := by
  rw [step, hstate]

end step

/-- A line comment goes on as long as its newlines follow backslashes. -/
theorem loop_spliced (index : Nat) (rest : List Char) (hstate : a.state = .lineComment)
    (hbody : Spliced p body) :
    a.loop (some p) index (body ++ rest) =
      a.loop (p :: body).getLast? (index + body.length) rest := by
  induction body generalizing p index with
  | nil => rfl
  | cons c body ih =>
    obtain ⟨hc, hbody⟩ := hbody
    have hstep : a.step (some p) index c = a := by
      rw [step_lineComment hstate]
      by_cases hnl : c = '\n'
      · rw [if_pos hnl, hc hnl, if_pos rfl]
      · rw [if_neg hnl]
    rw [List.cons_append, loop, hstep, ih (index + 1) hbody, List.length_cons,
      List.getLast?_cons_cons, Nat.add_assoc, Nat.add_comm 1]

theorem loop_lineComment (hstate : a.state = .lineComment) (hbody : Spliced p body)
    (hlast : (p :: body).getLast? ≠ some '\\') :
    a.loop (some p) index (body ++ '\n' :: rest) =
      (a.pushComment (index + body.length)).loop (some '\n') (index + body.length + 1) rest := by
  rw [loop_spliced index _ hstate hbody, loop, step_lineComment hstate, if_pos rfl, if_neg hlast]

/-- What the states within a block comment have in common. -/
def InBlock (body : List Char) (a : Analyzer) : Prop :=
  a.state = .blockComment ∨ a.state = .blockEndM ∧ body.head? ≠ some '/'

/-- One character of a block comment that does not end it. -/
theorem exists_step_inBlock (prev : Option Char) (index : Nat) {c : Char}
    (hblock : InBlock (c :: body) a) (hnext : c = '*' → body.head? ≠ some '/') :
    ∃ a', a.step prev index c = a' ∧ (∀ i, a'.pushComment i = a.pushComment i) ∧
      InBlock body a' ∧ (c = '*' → a'.state = .blockEndM) := by
  rcases hblock with hstate | ⟨hstate, hslash⟩
  · rw [step_blockComment hstate]
    by_cases hc : c = '*'
    · rw [if_pos hc]
      exact ⟨_, rfl, fun _ => rfl, .inr ⟨rfl, hnext hc⟩, fun _ => rfl⟩
    · rw [if_neg hc]
      exact ⟨_, rfl, fun _ => rfl, .inl hstate, fun h => absurd h hc⟩
  · have hne : c ≠ '/' := fun hc => hslash (hc ▸ rfl)
    rw [step_blockEndM hstate, if_neg hne]
    by_cases hc : c = '*'
    · rw [if_pos hc]
      exact ⟨_, rfl, fun _ => rfl, .inr ⟨hstate, hnext hc⟩, fun _ => hstate⟩
    · rw [if_neg hc]
      exact ⟨_, rfl, fun _ => rfl, .inl rfl, fun h => absurd h hc⟩

/-- A block comment ends with the first `*` before a `/`. -/
theorem loop_blockComment (hbody : ¬ ['*', '/'] <:+: body) (hblock : InBlock body a) :
    a.loop prev index (body ++ '*' :: '/' :: rest) =
      (a.pushComment (index + body.length + 1)).loop (some '/') (index + body.length + 2)
        rest := by
  induction body generalizing a prev index with
  | nil =>
    have hstar : InBlock ['*'] a := by
      rcases hblock with hstate | ⟨hstate, -⟩
      · exact .inl hstate
      · exact .inr ⟨hstate, by decide⟩
    obtain ⟨a', hstep, hpush, -, hstate⟩ :=
      exists_step_inBlock prev index hstar fun _ => by decide
    rw [List.nil_append, loop, hstep, loop, step_blockEndM (hstate rfl), if_pos rfl, hpush]
    rfl
  | cons c body ih =>
    have htail : ¬ ['*', '/'] <:+: body :=
      fun h => hbody (h.trans (List.suffix_cons c body).isInfix)
    have hnext : c = '*' → body.head? ≠ some '/' := by
      rintro rfl hhead
      obtain ⟨body, rfl⟩ := List.head?_eq_some_iff.mp hhead
      exact hbody ⟨[], body, rfl⟩
    obtain ⟨a', hstep, hpush, hblock', -⟩ := exists_step_inBlock prev index hblock hnext
    have hindex : index + 1 + body.length = index + (c :: body).length := by
      rw [List.length_cons, Nat.add_assoc, Nat.add_comm 1]
    rw [List.cons_append, loop, hstep, ih htail hblock', hpush, hindex]

theorem loop_literal {quote : Char} (hquote : quote = '"' ∨ quote = '\'')
    (hbody : Body quote body) (hstate : a.state = .string) (hend : a.charEnd = quote)
    (happ : quote = '\'' → '\'' ∉ body)
    (hlast : quote = '"' → (p :: body).getLast? ≠ some '\\') :
    a.loop (some p) index (body ++ quote :: rest) =
      (a.pushString (index + body.length) quote).loop (some quote) (index + body.length + 1)
        rest := by
  induction hbody generalizing p index with
  | nil =>
    have hstep : a.step (some p) index quote = a.pushString index quote := by
      rw [step_string hstate, hend]
      refine if_pos ?_
      rcases hquote with hq | hq
      · exact .inl ⟨hq, hq, by simpa using hlast hq⟩
      · exact .inr ⟨hq, hq⟩
    rw [List.nil_append, loop, hstep]
    rfl
  | @char c text hc _ _ _ ih =>
    have hstep : a.step (some p) index c = a := by
      rw [step_string hstate, hend]
      refine if_neg ?_
      rintro (⟨hq, hc', -⟩ | ⟨hc', hq⟩)
      · exact hc (hc'.trans hq.symm)
      · exact hc (hc'.trans hq.symm)
    rw [List.cons_append, loop, hstep, ih (fun hq hmem => happ hq (List.mem_cons_of_mem _ hmem))
      (fun hq => by simpa using hlast hq)]
    rw [List.length_cons, Nat.add_right_comm index 1, Nat.add_assoc index text.length 1]
  | @escape text c _ ih =>
    -- the analyzer reads the two characters apart
    have hstep : a.step (some p) index '\\' = a := by
      rw [step_string hstate, hend]
      refine if_neg ?_
      rintro (⟨-, hc, -⟩ | ⟨hc, -⟩)
      · exact absurd hc (by decide)
      · exact absurd hc (by decide)
    have hstep' : a.step (some '\\') (index + 1) c = a := by
      rw [step_string hstate, hend]
      refine if_neg ?_
      rintro (⟨-, -, hprev⟩ | ⟨hc, hq⟩)
      · exact hprev rfl
      · exact happ hq (by simp [hc])
    rw [List.cons_append, List.cons_append, loop, hstep, loop, hstep',
      ih (fun hq hmem => happ hq (by simp [hmem])) (fun hq => by simpa using hlast hq)]
    have hindex : index + 1 + 1 + text.length = index + ('\\' :: c :: text).length := by
      rw [List.length_cons, List.length_cons, Nat.add_assoc, Nat.add_comm 1, Nat.add_assoc,
        Nat.add_comm 1]
    rw [hindex]

/-! ## The text -/

/-- The literals that the analyzer reads as the lexer does: no escaped apostrophe in a character
literal, no escaped backslash at the end of a string. -/
def PlainLiteral : Piece → Prop
  | .literal quote body =>
    (quote = '\'' → '\'' ∉ body) ∧ (quote = '"' → body.getLast? ≠ some '\\')
  | .other _ | .comment _ => True

/-- Literals are plain, and behind a slash stands a character of no literal. -/
def Plain : List Piece → Prop
  | [] => True
  | p :: ps => PlainLiteral p ∧ (p = .other '/' → ∃ c ps', ps = .other c :: ps') ∧ Plain ps

/-- The comments and the text without them, where `pending` is a slash that was read before. -/
structure Reads (index : Nat) (text : List Char) (ps : List Piece) (pending : List Char)
    (a a' : Analyzer) : Prop where
  comments : (a'.finish (index + text.length - 1)).comments = a.comments ++ commentRanges index ps
  modified : (a'.finish (index + text.length - 1)).modified =
    a.modified ++ pending ++ ps.flatMap Piece.kept

section reads
variable {a' b : Analyzer} {pending : List Char} {piece : Piece} {n : Nat}

theorem finish_of_start (index : Nat) (hstate : a.state = .start) :
    (a.finish index).comments = a.comments ∧ (a.finish index).modified = a.modified := by
  rw [finish]
  split
  · simp only [hstate, and_self]
  · exact ⟨rfl, rfl⟩

/-- A piece before a text that is read. -/
theorem Reads.cons (piece : Piece) {later : List Char}
    (hreads : Reads (index + piece.text.length) text ps later b a')
    (hcomments : b.comments = a.comments ++ commentRanges index [piece])
    (hmodified : b.modified ++ later = a.modified ++ pending ++ piece.kept) :
    Reads index (piece.text ++ text) (piece :: ps) pending a a' := by
  have hindex : index + (piece.text ++ text).length - 1 =
      index + piece.text.length + text.length - 1 := by
    rw [List.length_append, Nat.add_assoc]
  have hranges : commentRanges index (piece :: ps) =
      commentRanges index [piece] ++ commentRanges (index + piece.text.length) ps := by
    cases piece <;> rfl
  constructor
  · rw [hindex, hreads.comments, hcomments, hranges, List.append_assoc]
  · rw [hindex, hreads.modified, hmodified, List.flatMap_cons, List.append_assoc]

theorem Reads.comment (state : State) {comment : List Char}
    (hreads : Reads (index + comment.length) text ps [] (pushComment (index + comment.length - 1)
      { a with state, range0 := index, range1 := none }) a') :
    Reads index (comment ++ text) (.comment comment :: ps) [] a a' := by
  refine Reads.cons (.comment comment) hreads rfl ?_
  rw [Piece.kept, List.append_nil, List.append_nil, List.append_nil]
  rfl

/-- The two characters that begin a comment. -/
theorem loop_open (hstate : a.state = .start) :
    a.loop prev index ('/' :: '/' :: rest) =
        loop (some '/') (index + 2)
          { a with state := .lineComment, range0 := index, range1 := none } rest ∧
      a.loop prev index ('/' :: '*' :: rest) =
        loop (some '*') (index + 2)
          { a with state := .blockComment, range0 := index, range1 := none } rest := by
  constructor <;> rw [loop, loop, step_start hstate, if_pos rfl, step_backslash rfl] <;> rfl

end reads

/-- The loop reads the pieces of a text: at the beginning of a piece the state is `start`, or it
is `backslash` and the slash is still to come. -/
theorem loop_lexes (prev : Option Char) (index : Nat) (hlexes : Lexes text ps)
    (hplain : Plain ps) :
    (a.state = .start → Reads index text ps [] a (a.loop prev index text)) ∧
      (a.state = .backslash → text.head? ≠ some '/' → text.head? ≠ some '*' →
        (∃ c ps', ps = .other c :: ps') →
        Reads index text ps ['/'] a (a.loop prev index text)) := by
  induction hlexes generalizing a prev index with
  | nil =>
    refine ⟨fun hstate => ?_, fun _ _ _ ⟨c, ps, hps⟩ => by cases hps⟩
    obtain ⟨hcomments, hmodified⟩ := finish_of_start (index - 1) hstate
    exact ⟨hcomments.trans (List.append_nil _).symm, hmodified.trans (by simp)⟩
  | @other c text ps hdouble hsingle hslash hlexes ih =>
    obtain ⟨-, hnext, hplain⟩ := hplain
    refine ⟨fun hstate => ?_, fun hstate hne hne' _ => ?_⟩
    · rw [loop, step_start hstate]
      by_cases hc : c = '/'
      · rw [if_pos hc]
        obtain ⟨hhead, hhead'⟩ := hslash hc
        refine Reads.cons (.other c) ((ih (some c) (index + 1) hplain).2 rfl hhead hhead' ?_)
          (List.append_nil _).symm (by simp [Piece.kept, hc])
        exact hnext (by rw [hc])
      · rw [if_neg hc, if_neg (not_or.mpr ⟨hdouble, hsingle⟩)]
        exact Reads.cons (.other c) ((ih (some c) (index + 1) hplain).1 hstate)
          (List.append_nil _).symm (by simp [Piece.kept])
    · have hc : c ≠ '/' := fun hc => hne (hc ▸ rfl)
      have hc' : c ≠ '*' := fun hc => hne' (hc ▸ rfl)
      rw [loop, step_backslash hstate, if_neg hc, if_neg hc']
      exact Reads.cons (.other c) ((ih (some c) (index + 1) hplain).1 rfl) (List.append_nil _).symm
        (by simp [Piece.kept])
  | @lineComment text ps body hbody hlast hlexes ih =>
    refine ⟨fun hstate => ?_, fun _ hne => absurd rfl hne⟩
    have htext : '/' :: '/' :: (body ++ '\n' :: text) =
        ('/' :: '/' :: (body ++ ['\n'])) ++ text := by simp
    have hlength : index + ('/' :: '/' :: (body ++ ['\n'])).length =
        index + 2 + body.length + 1 := by
      simp
      omega
    rw [(loop_open hstate).1, loop_lineComment rfl hbody hlast, htext]
    refine Reads.comment .lineComment ?_
    rw [hlength]
    exact (ih _ _ hplain.2.2).1 rfl
  | @lastLine body hbody =>
    refine ⟨fun hstate => ?_, fun _ hne => absurd rfl hne⟩
    have hloop := loop_spliced (index + 2) []
      (a := { a with state := .lineComment, range0 := index, range1 := none }) rfl hbody
    rw [List.append_nil] at hloop
    rw [(loop_open hstate).1, hloop]
    exact ⟨rfl, by simp [loop, finish, Piece.kept]⟩
  | @blockComment text ps body hbody hlexes ih =>
    refine ⟨fun hstate => ?_, fun _ hne => absurd rfl hne⟩
    have htext : '/' :: '*' :: (body ++ '*' :: '/' :: text) =
        ('/' :: '*' :: (body ++ ['*', '/'])) ++ text := by simp
    have hlength : index + ('/' :: '*' :: (body ++ ['*', '/'])).length =
        index + 2 + body.length + 2 := by
      simp
      omega
    rw [(loop_open hstate).2, loop_blockComment hbody (.inl rfl), htext]
    refine Reads.comment .blockComment ?_
    rw [hlength]
    exact (ih _ _ hplain.2.2).1 rfl
  | @literal quote text ps body hquote hbody hlexes ih =>
    refine ⟨fun hstate => ?_, fun _ _ _ ⟨c, ps, hps⟩ => by cases hps⟩
    obtain ⟨⟨happ, hlast⟩, -, hplain⟩ := hplain
    have htext : quote :: (body ++ quote :: text) = (Piece.literal quote body).text ++ text := by
      simp [Piece.text]
    have hlength : index + (Piece.literal quote body).text.length =
        index + 1 + body.length + 1 := by
      simp [Piece.text]
      omega
    have hslash : quote ≠ '/' := by
      rintro rfl
      rcases hquote with hq | hq <;> exact absurd hq (by decide)
    have hlast' : quote = '"' → (quote :: body).getLast? ≠ some '\\' := by
      intro hq
      rw [List.getLast?_cons]
      cases hb : body.getLast? with
      | none => simp [hq]
      | some c => simpa [hb] using hlast hq
    rw [loop, step_start hstate, if_neg hslash, if_pos hquote,
      loop_literal hquote hbody rfl rfl happ hlast', htext]
    have hreads := (ih (some quote) (index + 1 + body.length + 1)
      (a := pushString (index + 1 + body.length) quote
        { a with
          charEnd := quote, range0 := index, range1 := none, state := .string
          modified := a.modified ++ [quote] }) hplain).1 rfl
    rw [← hlength] at hreads ⊢
    refine Reads.cons (.literal quote body) hreads (List.append_nil _).symm ?_
    simp [pushString, Piece.kept]

theorem getCommentsCount_eq (a : Analyzer) :
    a.getCommentsCount = (a.comments.map fun r => r.2 - r.1 + 1).sum := by
  rw [getCommentsCount, List.sum_eq_foldl, List.foldl_map]

/-- On a text without escaped apostrophes in character literals, without escaped backslashes at the
end of strings and without slashes directly before a literal or at the end, the analyzer finds the
comments that a lexer finds. -/
theorem findComments_eq (hlexes : Lexes text ps) (hplain : Plain ps) :
    (findComments text).comments = commentRanges 0 ps ∧
      (findComments text).getCommentsCount = (ps.map Piece.commentLength).sum ∧
      (findComments text).modified = ps.flatMap Piece.kept := by
  have hreads := (loop_lexes (a := initial) none 0 hlexes hplain).1 rfl
  have hcomments : (findComments text).comments = commentRanges 0 ps := by
    have := hreads.comments
    rwa [Nat.zero_add] at this
  refine ⟨hcomments, ?_, ?_⟩
  · rw [getCommentsCount_eq, hcomments]
    exact sum_commentRanges fun body hmem => hlexes.comment_ne_nil hmem
  · have := hreads.modified
    rwa [Nat.zero_add] at this

/-- `"\""//x`, with a quote in the string. -/
theorem findComments_eq_string :
    (findComments ['"', '\\', '"', '"', '/', '/', 'x', '\n']).comments = [(4, 7)] ∧
      (findComments ['"', '\\', '"', '"', '/', '/', 'x', '\n']).getCommentsCount = 4 ∧
      (findComments ['"', '\\', '"', '"', '/', '/', 'x', '\n']).modified = ['"', '"'] :=
  findComments_eq
    (.literal ['\\', '"'] (.inl rfl) (.escape .nil)
      (.lineComment ['x'] ⟨by decide, trivial⟩ (by decide) .nil))
    ⟨⟨by decide, by decide⟩, nofun, trivial, nofun, trivial⟩

/-- `'\''//x`: the analyzer takes the escaped apostrophe for the end of the literal and the last
one for the beginning of another. -/
theorem comment_not_found :
    Lexes ['\'', '\\', '\'', '\'', '/', '/', 'x', '\n']
        [.literal '\'' ['\\', '\''], .comment ['/', '/', 'x', '\n']] ∧
      (findComments ['\'', '\\', '\'', '\'', '/', '/', 'x', '\n']).comments = [] ∧
      commentRanges 0 [.literal '\'' ['\\', '\''], .comment ['/', '/', 'x', '\n']] = [(4, 7)] :=
  ⟨.literal ['\\', '\''] (.inr rfl) (.escape .nil)
    (.lineComment ['x'] ⟨by decide, trivial⟩ (by decide) .nil), rfl, rfl⟩

end CAnalyzer
