import FitProjects.IPP.HeaderComments

/-! # Texts whose comments are transparent

`Transparent` says of a text, piece by piece, that nothing in its comments and character constants
can lead the parser astray: outside of bodies and declarations it is the stars before the end of a
comment, a slash or a quote; in what `SkipBody` and `SkipStructs` jump over it is a brace, a
semicolon or a parenthesis. In such a text the parser finds what it finds in the text without the
comments outside. -/

namespace HeaderParser

open CText
open Variables (initial)

variable {region : Region} {p : Piece} {ps : List Piece} {c : Char} {u text data : List Char}
  {n fuel : Nat} {struct bracket : Bool} {parens : Int}

/-! ## The jumps -/

/-- No comment and no literal has one of the characters. -/
def Shows (cs : List Char) : Piece → Prop
  | .other _ => True
  | p => ∀ c ∈ p.text, c ∉ cs

/-- The number of open braces. -/
def Region.depth : Region → Nat
  | outside .. => 0
  | body braces .. => braces
  | declaration braces => braces

/-- `SkipStructs` sees a declaration as a lexer does: up to the semicolon outside of braces, which
stands outside of parentheses too, no comment or literal has a brace, a semicolon or a
parenthesis. -/
def Skippable : Region → List Piece → Prop
  | _, [] => True
  | region, p :: ps =>
    let region := region.enter (p :: ps)
    Shows ['{', '}', ';', '('] p ∧
      if p = .other ';' ∧ region.depth = 0 then region.next p = .outside [] 0
      else Skippable (region.next p) ps

/-- A parenthesis, or `bracket`, but no brace comes before the semicolon: `SkipStructs` leaves the
declaration where it stands. -/
def left (bracket : Bool) : List Piece → Bool
  | [] => bracket
  | .other c :: ps =>
    if c = ';' then bracket else if c = '{' then false else left (bracket || c = '(') ps
  | _ :: ps => left bracket ps

/-- The parser reads the piece as a lexer does: no lone slash or double quote, a comment that ends
for the parser where it ends, and a character constant without characters that mean something to the
parser. -/
def Readable : Piece → Prop
  | .other c => c ≠ '/' ∧ c ≠ '"'
  | .comment t => Comment t
  | .literal quote body => quote = '\'' ∧ ∀ c ∈ body, c ∉ ['/', '"', '{', ';', '(', ')']

/-- The pieces are readable up to the semicolon, which stands outside of parentheses. -/
def ReadTo (parens : Int) : List Piece → Prop
  | [] => True
  | p :: ps =>
    Readable p ∧
      match p with
      | .other c => if c = ';' then parens = 0 else ReadTo (bracketsAfter parens c) ps
      | _ => ReadTo parens ps

/-- A line comment that ends with the text. -/
def LastLine (p : Piece) (ps : List Piece) : Prop :=
  ps = [] ∧ ∃ body, p = .comment ('/' :: '/' :: body) ∧ '\n' ∉ body

/-- What a piece must be like where it stands. Behind one of the words the declaration must be
skippable; one that is left where it stands, such as the type of a function, must be readable. A
piece outside must be readable, and one in a body must not hide braces. -/
def Clear (region : Region) (p : Piece) (ps : List Piece) : Prop :=
  match region with
  | .outside data parens =>
    (strip data ∈ keywords → Skippable (.outside data parens) (p :: ps)) ∧
      if declares data (p :: ps) then left false (p :: ps) → ReadTo parens (p :: ps)
      else Readable p ∨ LastLine p ps
  | .body .. => Shows ['{', '}'] p
  | .declaration _ => True

/-- Every piece of the text is clear where it stands. -/
def Transparent : Region → List Piece → Prop
  | _, [] => True
  | region, p :: ps =>
    Clear region p ps ∧ Transparent ((region.enter (p :: ps)).next p) ps

/-! ## Jumps over pieces -/

/-- Where one is behind the brace that closes a body or the outer brace of a declaration. -/
def Region.closed : Region → Region
  | body _ data parens => outside data parens
  | declaration _ => declaration 0
  | region => region

theorem Shows.mono {cs cs' : List Char} (h : Shows cs p) (hcs : ∀ c ∈ cs', c ∈ cs) :
    Shows cs' p := by
  cases p with
  | other c => trivial
  | comment t => exact fun c hc hmem => h c hc (hcs c hmem)
  | literal quote body => exact fun c hc hmem => h c hc (hcs c hmem)

/-- The pieces are clear where they stand, and none is empty. -/
structure Ready (region : Region) (ps : List Piece) : Prop where
  transparent : Transparent region ps
  ne_nil : ∀ p ∈ ps, p.text ≠ []

theorem Ready.tail (h : Ready region (p :: ps)) : Ready ((region.enter (p :: ps)).next p) ps :=
  ⟨h.transparent.2, fun q hq => h.ne_nil q (List.mem_cons_of_mem p hq)⟩

/-- Of the `length` pieces some are left, outside, or none. -/
def Resumes (length : Nat) (as : List Atom) : Prop :=
  as = [] ∨ ∃ ps, as = mark (.outside [] 0) ps ∧ Ready (.outside [] 0) ps ∧ ps.length < length

theorem Resumes.mono {m : Nat} {as : List Atom} (h : Resumes n as) (hle : n ≤ m) : Resumes m as := by
  rcases h with hnil | ⟨ps, hps, hready, hlt⟩
  · exact .inl hnil
  · exact .inr ⟨ps, hps, hready, Nat.lt_of_lt_of_le hlt hle⟩

/-- The open parentheses of the data. -/
def balance (data : List Char) : Int := data.foldl bracketsAfter 0

end HeaderParser
