import Mathlib.Data.List.Infix
import Mathlib.Algebra.GroupWithZero.Nat

/-! # Comments and literals in C texts

`Lexes text ps` cuts a C text into comments, string and character literals and other characters, as
a C lexer does: a line comment goes to the first newline that does not follow a backslash, a block
comment to the first `*` before a `/`, a literal to the first quote that is not escaped, and nothing
begins inside of these. Texts with an unfinished block comment or literal have no pieces; a line
comment may end with the text. -/

namespace CText

inductive Piece
  | other (c : Char)
  | comment (text : List Char)
  | literal (quote : Char) (body : List Char)
  deriving DecidableEq

namespace Piece

def text : Piece → List Char
  | other c => [c]
  | comment text => text
  | literal quote body => quote :: (body ++ [quote])

/-- What stays when comments and the insides of literals are removed. -/
def kept : Piece → List Char
  | other c => [c]
  | comment _ => []
  | literal quote _ => [quote, quote]

def commentLength : Piece → Nat
  | comment text => text.length
  | other _ | literal .. => 0

end Piece

/-- Every newline follows a backslash; `prev` is the character before the text. -/
def Spliced (prev : Char) : List Char → Prop
  | [] => True
  | c :: text => (c = '\n' → prev = '\\') ∧ Spliced c text

/-- The inside of a literal: a backslash goes with the character behind it. -/
inductive Body (quote : Char) : List Char → Prop
  | nil : Body quote []
  | char : c ≠ quote → c ≠ '\\' → c ≠ '\n' → Body quote text → Body quote (c :: text)
  | escape : Body quote text → Body quote ('\\' :: c :: text)

inductive Lexes : List Char → List Piece → Prop
  | nil : Lexes [] []
  | other : c ≠ '"' → c ≠ '\'' →
      (c = '/' → text.head? ≠ some '/' ∧ text.head? ≠ some '*') →
      Lexes text ps → Lexes (c :: text) (.other c :: ps)
  | lineComment (body : List Char) :
      Spliced '/' body → ('/' :: body).getLast? ≠ some '\\' →
      Lexes text ps →
      Lexes ('/' :: '/' :: (body ++ '\n' :: text))
        (.comment ('/' :: '/' :: (body ++ ['\n'])) :: ps)
  | lastLine (body : List Char) : Spliced '/' body →
      Lexes ('/' :: '/' :: body) [.comment ('/' :: '/' :: body)]
  | blockComment (body : List Char) : ¬ ['*', '/'] <:+: body → Lexes text ps →
      Lexes ('/' :: '*' :: (body ++ '*' :: '/' :: text))
        (.comment ('/' :: '*' :: (body ++ ['*', '/'])) :: ps)
  | literal (body : List Char) :
      quote = '"' ∨ quote = '\'' → Body quote body → Lexes text ps →
      Lexes (quote :: (body ++ quote :: text)) (.literal quote body :: ps)

/-- The first and the last position of every comment, from position `i` on. -/
def commentRanges (i : Nat) : List Piece → List (Nat × Nat)
  | [] => []
  | .comment text :: ps => (i, i + text.length - 1) :: commentRanges (i + text.length) ps
  | p :: ps => commentRanges (i + p.text.length) ps

variable {text body : List Char} {p : Piece} {ps : List Piece} {i : Nat}

theorem Lexes.comment_ne_nil (h : Lexes text ps) (hmem : .comment body ∈ ps) : body ≠ [] := by
  induction h with
  | nil => exact absurd hmem List.not_mem_nil
  | lastLine => simp_all
  | other _ _ _ _ ih | lineComment _ _ _ _ ih | blockComment _ _ _ ih | literal _ _ _ _ ih =>
    rcases List.mem_cons.mp hmem with heq | hmem
    · first | (injection heq with heq; simp [heq]) | cases heq
    · exact ih hmem

/-- The ranges of the comments are as long as the comments. -/
theorem sum_commentRanges (hne : ∀ body, .comment body ∈ ps → body ≠ []) :
    ((commentRanges i ps).map fun r => r.2 - r.1 + 1).sum =
      (ps.map Piece.commentLength).sum := by
  induction ps generalizing i with
  | nil => rfl
  | cons p ps ih =>
    have ih := ih (i := i + p.text.length) fun body hmem => hne body (List.mem_cons_of_mem _ hmem)
    cases p with
    | comment body =>
      have hpos : 0 < body.length :=
        List.length_pos_iff.mpr (hne body List.mem_cons_self)
      rw [commentRanges, List.map_cons, List.sum_cons, List.map_cons, List.sum_cons, ← ih,
        Piece.commentLength, Piece.text]
      omega
    | other c | literal quote body =>
      rw [List.map_cons, List.sum_cons, ← ih, Piece.commentLength, Nat.zero_add]
      rfl

end CText
