import FitProjects.Lib.CText
import FitProjects.IPP.HeaderParser
import Mathlib.Algebra.Group.Nat.Even

/-! # Comments outside of bodies and declarations

What the header parser finds in a text and in the text without the comments that stand outside of
function bodies and of declarations with `struct`, `enum`, `union` or `typedef`. -/

namespace HeaderParser

open CText
open Variables (step loop initial)

/-! ## The loop without fuel -/

section run
variable {v : Variables} {c : Char} {text rest : List Char} {n fuel : Nat} {struct bracket : Bool}

/-- The loop with fuel for the whole text. -/
def run (v : Variables) (text : List Char) : Variables := v.loop text.length text

theorem run_nil : run v [] = v := rfl

end run

/-! ## The states within a comment -/

/-- The character takes the machine from the one state to the other, and nothing else changes. -/
def Moves (s : State) (c : Char) (s' : State) : Prop :=
  ∀ (v : Variables) (text : List Char), v.state = s → v.step c text = ({ v with state := s' }, text)

inductive Path : State → List Char → State → Prop
  | nil : Path s [] s
  | cons : Moves s c s' → Path s' t s'' → Path s (c :: t) s''

/-- The stars at the end of the inside of a block comment. -/
def lastStars (body : List Char) : Nat := (body.rtakeWhile (· = '*')).length

/-- The comments that end for the machine where they end for a lexer. -/
inductive Comment : List Char → Prop
  | line (body : List Char) : '\n' ∉ body → Comment ('/' :: '/' :: (body ++ ['\n']))
  | block (body : List Char) : ¬ ['*', '/'] <:+: body → Even (lastStars body) →
      Comment ('/' :: '*' :: (body ++ ['*', '/']))

/-- While a text is read with these data, `SkipStructs` skips nothing. -/
def Stays (data t text : List Char) : Prop :=
  strip data ∈ keywords → ∀ u, u ≠ [] → u <:+ t → skipStructs (u ++ text) = none

section path
variable {s s' s'' : State} {c : Char} {t t' body : List Char}

theorem Path.append (h : Path s t s') (h' : Path s' t' s'') : Path s (t ++ t') s'' := by
  induction h with
  | nil => exact h'
  | cons hmoves _ ih => exact .cons hmoves (ih h')

theorem Path.single (h : Moves s c s') : Path s [c] s' := .cons h .nil

theorem moves_slash : Moves .start '/' .comment :=
  fun v text h => by rw [step, h]; rfl

theorem moves_comment_slash : Moves .comment '/' .lineComment :=
  fun v text h => by rw [step, h]; rfl

theorem moves_comment_star : Moves .comment '*' .blockComment :=
  fun v text h => by rw [step, h]; rfl

theorem moves_lineComment_newline : Moves .lineComment '\n' .start :=
  fun v text h => by rw [step, h]; rfl

theorem moves_lineComment (hc : c ≠ '\n') : Moves .lineComment c .lineComment := by
  rintro ⟨data, brackets, state, headers⟩ text rfl
  exact if_neg hc

theorem moves_blockComment_star : Moves .blockComment '*' .blockCommentEnd :=
  fun v text h => by rw [step, h]; rfl

theorem moves_blockComment (hc : c ≠ '*') : Moves .blockComment c .blockComment := by
  rintro ⟨data, brackets, state, headers⟩ text rfl
  exact if_neg hc

theorem moves_blockCommentEnd_slash : Moves .blockCommentEnd '/' .start :=
  fun v text h => by rw [step, h]; rfl

/-- Also a star takes the machine back. -/
theorem moves_blockCommentEnd (hc : c ≠ '/') : Moves .blockCommentEnd c .blockComment :=
  fun v text h => by rw [step, h]; exact if_neg hc

theorem path_lineComment (hbody : '\n' ∉ body) : Path .lineComment body .lineComment := by
  induction body with
  | nil => exact .nil
  | cons c body ih =>
    rw [List.mem_cons, not_or] at hbody
    exact .cons (moves_lineComment (Ne.symm hbody.1)) (ih hbody.2)

theorem lastStars_star : lastStars (body ++ ['*']) = lastStars body + 1 := by
  rw [lastStars, List.rtakeWhile_concat_pos _ _ _ (by decide), List.length_append]
  rfl

theorem lastStars_of_ne (hc : c ≠ '*') : lastStars (body ++ [c]) = 0 := by
  rw [lastStars, List.rtakeWhile_concat_neg _ _ _ (by simpa using hc), List.length_nil]

/-- The end of a block comment is expected after an odd number of stars. -/
theorem path_blockComment (hbody : ¬ ['*', '/'] <:+: body) :
    (Even (lastStars body) → Path .blockComment body .blockComment) ∧
      (¬ Even (lastStars body) → Path .blockComment body .blockCommentEnd) := by
  induction body using List.reverseRecOn with
  | nil => exact ⟨fun _ => .nil, fun h => absurd (by decide) h⟩
  | append_singleton body c ih =>
    obtain ⟨ih, ih'⟩ := ih fun h => hbody (h.trans (List.prefix_append body [c]).isInfix)
    by_cases hc : c = '*'
    · subst hc
      rw [lastStars_star, Nat.even_add_one, not_not]
      exact ⟨fun h => (ih' h).append (.single (moves_blockCommentEnd (by decide))),
        fun h => (ih h).append (.single moves_blockComment_star)⟩
    · rw [lastStars_of_ne hc]
      refine ⟨fun _ => ?_, fun h => absurd (by decide) h⟩
      by_cases hstars : Even (lastStars body)
      · exact (ih hstars).append (.single (moves_blockComment hc))
      · -- the last character is a star, and a slash would end the comment
        refine (ih' hstars).append (.single (moves_blockCommentEnd ?_))
        rintro rfl
        cases body using List.reverseRecOn with
        | nil => exact hstars (by decide)
        | append_singleton body d =>
          by_cases hd : d = '*'
          · exact hbody ⟨body, [], by simp [hd]⟩
          · exact hstars (by rw [lastStars_of_ne hd]; decide)

theorem Comment.path (h : Comment t) : Path .start t .start := by
  cases h with
  | line body hbody =>
    exact .cons moves_slash (.cons moves_comment_slash
      ((path_lineComment hbody).append (.single moves_lineComment_newline)))
  | block body hbody hstars =>
    exact .cons moves_slash (.cons moves_comment_star (((path_blockComment hbody).1 hstars).append
      (.cons moves_blockComment_star (.single moves_blockCommentEnd_slash))))

theorem Stays.skip {v : Variables} {text : List Char} (h : Stays v.data (c :: t) text) :
    v.skip (c :: (t ++ text)) = none := by
  rw [Variables.skip]
  split
  · next hdata => exact h hdata (c :: t) (List.cons_ne_nil c t) List.suffix_rfl
  · rfl

theorem Stays.tail {data text : List Char} (h : Stays data (c :: t) text) : Stays data t text :=
  fun hdata u hne hu => h hdata u hne (hu.trans (List.suffix_cons c t))

end path

/-! ## The text without comments -/

/-- A character, or a comment that stands outside of bodies and declarations or within one. -/
inductive Atom
  | char (c : Char)
  | comment (text : List Char) (outside : Bool)

namespace Atom

def text : Atom → List Char
  | char c => [c]
  | comment text _ => text

/-- What is left of the text without the comments outside. -/
def kept : Atom → List Char
  | char c => [c]
  | comment text outside => if outside then [] else text

end Atom

def dataAfter (data : List Char) (brackets : Int) (c : Char) : List Char :=
  if c = ';' ∧ brackets = 0 then [] else data ++ [c]

def bracketsAfter (brackets : Int) (c : Char) : Int :=
  if c = '(' then brackets + 1 else if c = ')' then brackets - 1 else brackets

/-- Where in a text something stands: outside, with what came since the last header and the number
of open parentheses; in a body, with what is outside of it; in a declaration. -/
inductive Region
  | outside (data : List Char) (parens : Int)
  | body (braces : Nat) (data : List Char) (parens : Int)
  | declaration (braces : Nat)

def isIdent (c : Char) : Bool := c.isAlphanum || c = '_'

/-- The `struct`, `enum` or `union` that begins is no type of a function. -/
def noParen : List Piece → Bool
  | [] => true
  | .other '(' :: _ => false
  | .other '{' :: _ => true
  | .other ';' :: _ => true
  | _ :: ps => noParen ps

local instance lawfulBEqChars : LawfulBEq (List Char) := inferInstance

/-- What came is one of the words, and a declaration goes on here. -/
def declares (data : List Char) (ps : List Piece) : Bool :=
  strip data ∈ keywords &&
    (match ps with
      | .other c :: _ => !isIdent c
      | _ => true) &&
    (strip data = ['t', 'y', 'p', 'e', 'd', 'e', 'f'] || noParen ps)

namespace Region

def enter (ps : List Piece) : Region → Region
  | outside data parens =>
    if declares data ps then declaration 0 else outside data parens
  | region => region

def next (p : Piece) : Region → Region
  | outside data parens =>
    match p with
    | .comment _ => outside data parens
    | .literal .. => outside (data ++ p.text) parens
    | .other c =>
      if c = '{' then body 1 (if parens = 0 then [] else data) parens
      else outside (dataAfter data parens c) (bracketsAfter parens c)
  | body braces data parens =>
    match p with
    | .other '{' => body (braces + 1) data parens
    | .other '}' => if braces = 1 then outside data parens else body (braces - 1) data parens
    | _ => body braces data parens
  | declaration braces =>
    match p with
    | .other '{' => declaration (braces + 1)
    | .other '}' => declaration (braces - 1)
    | .other ';' => if braces = 0 then outside [] 0 else declaration braces
    | _ => declaration braces

def isOutside : Region → Bool
  | outside .. => true
  | body .. | declaration _ => false

end Region

def atoms (outside : Bool) : Piece → List Atom
  | .comment text => [.comment text outside]
  | .other c => [.char c]
  | .literal quote body => (Piece.literal quote body).text.map .char

/-- The comments are told apart by where they stand. -/
def mark (region : Region) : List Piece → List Atom
  | [] => []
  | p :: ps =>
    let region := region.enter (p :: ps)
    atoms region.isOutside p ++ mark (region.next p) ps

def source (as : List Atom) : List Char := as.flatMap Atom.text

def kept (as : List Atom) : List Char := as.flatMap Atom.kept

/-- The parser can read the text and the text without the comments outside alike: what it skips in
the one it skips in the other, and no slash, quote or comment leads it astray. -/
inductive Aligned : List Char → Int → List Atom → Prop
  | same : source as = kept as → Aligned data brackets as
  | skip (as as' : List Atom) : strip data ∈ keywords → kept (as ++ as') ≠ [] →
      skipStructs (source (as ++ as')) = some (source as') →
      skipStructs (kept (as ++ as')) = some (kept as') →
      Aligned [] brackets as' → Aligned data brackets (as ++ as')
  | char : Stays data [c] (source as) → Stays data [c] (kept as) →
      c ≠ '/' → c ≠ '"' → c ≠ '{' →
      Aligned (dataAfter data brackets c) (bracketsAfter brackets c) as →
      Aligned data brackets (.char c :: as)
  | body (as as' : List Atom) :
      Stays data ['{'] (source (as ++ as')) → Stays data ['{'] (kept (as ++ as')) →
      skipBody 1 (source (as ++ as')) = source as' → skipBody 1 (kept (as ++ as')) = kept as' →
      Aligned (if brackets = 0 then [] else data) brackets as' →
      Aligned data brackets (.char '{' :: (as ++ as'))
  | comment : Comment t → Stays data t (source as) → (outside = false → Stays data t (kept as)) →
      Aligned data brackets as → Aligned data brackets (.comment t outside :: as)
  | lastLine (body : List Char) : '\n' ∉ body → Stays data ('/' :: '/' :: body) [] →
      Aligned data brackets [.comment ('/' :: '/' :: body) true]

section aligned
variable {v : Variables} {c : Char} {text : List Char} {data : List Char} {brackets : Int}
  {as : List Atom} {ps : List Piece}

end aligned

end HeaderParser
