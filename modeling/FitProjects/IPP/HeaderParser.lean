import Mathlib.Data.List.DropRight

/-! # The function headers in a C header

`HeaderParser` of `IPP/2.CHA/HeaderParser.py`. A position in the text is the rest of the text from
there on; the loops that jump take the length of the text as fuel. -/

namespace HeaderParser

/-- `str.isspace`, and the class `\s` of the regular expressions. -/
def isSpace (c : Char) : Bool :=
  let n := c.toNat
  (9 ≤ n && n ≤ 13) || (28 ≤ n && n ≤ 32) || n == 0x85 || n == 0xA0 || n == 0x1680 ||
    (0x2000 ≤ n && n ≤ 0x200A) || n == 0x2028 || n == 0x2029 || n == 0x202F || n == 0x205F ||
    n == 0x3000

def strip (data : List Char) : List Char := (data.dropWhile isSpace).rdropWhile isSpace

/-- `['struct','enum','union','typedef']`. -/
def keywords : List (List Char) :=
  [['s', 't', 'r', 'u', 'c', 't'], ['e', 'n', 'u', 'm'], ['u', 'n', 'i', 'o', 'n'],
    ['t', 'y', 'p', 'e', 'd', 'e', 'f']]

/-! ## The regular expressions -/

/-- `re.sub(r"\\\r?\n","",self.data)`. -/
def joinLines : List Char → List Char
  | '\\' :: '\n' :: text => joinLines text
  | '\\' :: '\r' :: '\n' :: text => joinLines text
  | c :: text => c :: joinLines text
  | [] => []

/-- What follows a match of `\s*#.*\n`. -/
def macroLine (text : List Char) : Option (List Char) :=
  match text.dropWhile isSpace with
  | '#' :: text =>
    match text.dropWhile (· ≠ '\n') with
    | _ :: rest => some rest
    | [] => none
  | _ => none

/-- `re.sub("^\s*#.*\n","",self.data,flags = re.MULTILINE)`, at the beginning of a line or not. -/
def removeMacros : Nat → Bool → List Char → List Char
  | _, _, [] => []
  | 0, _, text => text
  | fuel + 1, lineStart, c :: text =>
    match if lineStart then macroLine (c :: text) else none with
    | some rest => removeMacros fuel true rest
    | none => c :: removeMacros fuel (c = '\n') text

def preprocess (text : List Char) : List Char :=
  let text := joinLines text
  removeMacros text.length true text

/-! ## The loop -/

/-- `SkipBody`: what follows the bracket that closes the body. -/
def skipBody (brackets : Nat) : List Char → List Char
  | [] => []
  | c :: text =>
    let brackets := if c = '{' then brackets + 1 else if c = '}' then brackets - 1 else brackets
    if brackets = 0 then text else skipBody brackets text

/-- The loop of `SkipStructs`; nothing when it returns the position where it began. -/
def skipStructsLoop : Nat → Bool → Bool → List Char → Option (List Char)
  | _, struct, bracket, [] => if !struct && bracket then none else some []
  | 0, _, _, _ => none
  | fuel + 1, struct, bracket, c :: text =>
    if c = ';' then if !struct && bracket then none else some text
    else if c = '{' then skipStructsLoop fuel true bracket (skipBody 1 text)
    else if c = '(' then skipStructsLoop fuel struct true text
    else skipStructsLoop fuel struct bracket text

def skipStructs (text : List Char) : Option (List Char) :=
  skipStructsLoop text.length false false text

inductive State
  | start
  | comment
  | lineComment
  | blockComment
  | blockCommentEnd
  | string
  deriving DecidableEq

/-- The variables of `Parse`. -/
structure Variables where
  data : List Char
  brackets : Int
  state : State
  functionHeaders : List (List Char)
  deriving DecidableEq

namespace Variables

/-- What the body of the loop does with a character, and the text that it goes on with. -/
def step (v : Variables) (char : Char) (text : List Char) : Variables × List Char :=
  match v.state with
  | .start =>
    if char = '/' then ({ v with state := .comment }, text)
    else if char = '"' then ({ v with state := .string, data := v.data ++ [char] }, text)
    else if (char = ';' ∨ char = '{') ∧ v.brackets = 0 then
      ({ v with functionHeaders := v.functionHeaders ++ [strip v.data], data := [] },
        if char = '{' then skipBody 1 text else text)
    else if char = '{' then (v, skipBody 1 text)
    else if char = '(' then
      ({ v with brackets := v.brackets + 1, data := v.data ++ [char] }, text)
    else if char = ')' then
      ({ v with brackets := v.brackets - 1, data := v.data ++ [char] }, text)
    else ({ v with data := v.data ++ [char] }, text)
  | .comment =>
    if char = '*' then ({ v with state := .blockComment }, text)
    else if char = '/' then ({ v with state := .lineComment }, text)
    else (v, text)
  | .lineComment => if char = '\n' then ({ v with state := .start }, text) else (v, text)
  | .blockComment =>
    if char = '*' then ({ v with state := .blockCommentEnd }, text) else (v, text)
  | .blockCommentEnd =>
    if char = '/' then ({ v with state := .start }, text)
    else ({ v with state := .blockComment }, text)
  | .string =>
    if char = '"' ∧ char ≠ '\\' then
      ({ v with state := .start, data := v.data ++ [char] }, text)
    else (v, text)

/-- Where the test of `data` at the beginning of the loop jumps to. -/
def skip (v : Variables) (text : List Char) : Option (List Char) :=
  if strip v.data ∈ keywords then skipStructs text else none

def loop : Nat → Variables → List Char → Variables
  | _, v, [] => v
  | 0, v, _ => v
  | fuel + 1, v, char :: text =>
    match v.skip (char :: text) with
    | none => loop fuel (v.step char text).1 (v.step char text).2
    | some [] => { v with data := [] }
    | some (char :: text) =>
      let v := { v with data := [] }
      loop fuel (v.step char text).1 (v.step char text).2

/-- What comes after the loop. -/
def finish (v : Variables) : List (List Char) :=
  if strip v.data ≠ [] ∧ strip v.data ≠ ['"', '"'] then v.functionHeaders ++ [strip v.data]
  else v.functionHeaders

/-- The variables before the loop. -/
def initial : Variables := { data := [], brackets := 0, state := .start, functionHeaders := [] }

end Variables

/-- `Parse`, the list `functionHeaders` that it leaves. -/
def parse (text : List Char) : List (List Char) :=
  let text := preprocess text
  (Variables.initial.loop text.length text).finish

end HeaderParser
