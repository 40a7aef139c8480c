import FitProjects.Lib.CString

/-! # What the shell keeps of a line

`programInfo` of `POS/proj2/main.c` with `parseBuffer`, `pushArgument`, `saveFile` and
`clearProgram`. The scanner of `parseBuffer` never looks at the program it fills in, so it is
modelled as the sequence of updates that it makes, which are then carried out on the program.

An access outside of the block of `args`, and a read of a cell of it that holds no valid pointer,
is `none`. -/

namespace Shell

/-- `DEFAULT_ARGC`. -/
def defaultArgc : Nat := 4

/-- The characters `<`, `>` and `&`. -/
def lessSign : UInt8 := 60
def greaterSign : UInt8 := 62
def ampersand : UInt8 := 38

/-- A pointer in the block of `args`. -/
inductive Cell
  | uninit
  | null
  | str (text : List UInt8)
  /-- Points to freed memory. -/
  | dangling
  deriving DecidableEq

/-- `programInfo`. The pointers allocated for `args` are a list. -/
structure Program where
  args : List Cell
  input : Option (List UInt8)
  output : Option (List UInt8)
  bg : Bool
  argc : Nat
  maxArgc : Nat
  deriving DecidableEq

/-- The states of the scanner. -/
inductive FMStates
  | new
  | add
  | input
  | inputAdd
  | output
  | outputAdd
  deriving DecidableEq

/-- The variables of `parseBuffer` that live from one character to the next. -/
structure Scan where
  state : FMStates
  startPos : Nat
  deriving DecidableEq

/-- What the scanner does to the program. -/
inductive Update
  | setBg
  | pushArgument (startPos endPos : Nat)
  | saveInput (startPos endPos : Nat)
  | saveOutput (startPos endPos : Nat)
  deriving DecidableEq

/-- One pass of the loop of `parseBuffer` at the character `c` in place `i`; `last` is
`i == bufferLen-1`. -/
def scanChar (s : Scan) (i : Nat) (c : UInt8) (last : Bool) : Scan × List Update :=
  match s.state with
  | .new =>
    if isspace c then ({ s with state := .new }, [])
    else if c = lessSign then ({ s with state := .input }, [])
    else if c = greaterSign then ({ s with state := .output }, [])
    else if c = ampersand then (s, [.setBg])
    else ({ state := .add, startPos := i }, if last then [.pushArgument i i] else [])
  | .add =>
    if c = lessSign then ({ s with state := .input }, [.pushArgument s.startPos (i - 1)])
    else if c = greaterSign then ({ s with state := .output }, [.pushArgument s.startPos (i - 1)])
    else if c = ampersand then (s, [.setBg, .pushArgument s.startPos (i - 1)])
    else if isspace c || last then
      let endPos := if isspace c then i - 1 else i
      ({ s with state := .new }, [.pushArgument s.startPos endPos])
    else (s, [])
  | .input =>
    if !isspace c then
      ({ state := .inputAdd, startPos := i }, if last then [.saveInput i i] else [])
    else (s, [])
  | .inputAdd =>
    if c = greaterSign then ({ s with state := .output }, [.saveInput s.startPos (i - 1)])
    else if c = ampersand then (s, [.setBg, .saveInput s.startPos (i - 1)])
    else if isspace c || last then
      let endPos := if isspace c then i - 1 else i
      ({ s with state := .new }, [.saveInput s.startPos endPos])
    else (s, [])
  | .output =>
    if !isspace c then
      ({ state := .outputAdd, startPos := i }, if last then [.saveOutput i i] else [])
    else (s, [])
  | .outputAdd =>
    if c = lessSign then ({ s with state := .input }, [.saveOutput s.startPos (i - 1)])
    else if c = ampersand then (s, [.setBg, .saveOutput s.startPos (i - 1)])
    else if isspace c || last then
      let endPos := if isspace c then i - 1 else i
      ({ s with state := .new }, [.saveOutput s.startPos endPos])
    else (s, [])

/-- The loop of `parseBuffer` over the characters from place `i` on. -/
def scan (s : Scan) (i : Nat) : List UInt8 → List Update
  | [] => []
  | c :: rest =>
    let r := scanChar s i c rest.isEmpty
    r.2 ++ scan r.1 (i + 1) rest

/-- The updates that `parseBuffer` makes for a line. `startPos` is set before it is read. -/
def updates (line : List UInt8) : List Update := scan { state := .new, startPos := 0 } 0 line

/-- The text that `pushArgument` and `saveFile` copy. -/
def copyText (buffer : List UInt8) (startPos endPos : Nat) : List UInt8 :=
  let len := endPos - startPos + 1
  (buffer.drop startPos).take len

/-- `realloc` of a block of pointers. -/
def realloc (cells : List Cell) (n : Nat) : List Cell :=
  cells.take n ++ List.replicate (n - cells.length) .uninit

namespace Program

/-- The program before the first line, as `execWorker` sets it up. -/
def init : Program where
  args := .null :: List.replicate (defaultArgc - 1) .uninit
  input := none
  output := none
  bg := false
  argc := 0
  maxArgc := defaultArgc

/-- The growth of `args` in `pushArgument`. -/
def grow (p : Program) : Program :=
  if p.argc > p.maxArgc + 1 then
    { p with maxArgc := p.maxArgc * 2, args := realloc p.args (p.maxArgc * 2) }
  else p

/-- Both pointers that `pushArgument` writes are allocated. -/
def HasRoom (p : Program) : Prop := p.argc - 1 < p.args.length ∧ p.argc < p.args.length

instance (p : Program) : Decidable p.HasRoom := inferInstanceAs (Decidable (_ ∧ _))

def pushArgument (p : Program) (arg : List UInt8) : Option Program :=
  let p := grow { p with argc := p.argc + 1 }
  if p.HasRoom then
    some { p with args := (p.args.set (p.argc - 1) (.str arg)).set p.argc .null }
  else none

/-- An update of the program with text of the buffer. -/
def update (buffer : List UInt8) (p : Program) : Update → Option Program
  | .setBg => some { p with bg := true }
  | .pushArgument startPos endPos => p.pushArgument (copyText buffer startPos endPos)
  | .saveInput startPos endPos => some { p with input := some (copyText buffer startPos endPos) }
  | .saveOutput startPos endPos => some { p with output := some (copyText buffer startPos endPos) }

/-- `parseBuffer`. -/
def parseBuffer (p : Program) (buffer : List UInt8) : Option Program :=
  (updates (cstring buffer)).foldlM (update (cstring buffer)) p

/-- The loop of `clearProgram` that frees the arguments up to the first `NULL`. -/
def freeArgs : List Cell → Option (List Cell)
  | .null :: cells => some (.null :: cells)
  | .str _ :: cells => (freeArgs cells).map (.dangling :: ·)
  | _ => none

def clearProgram (p : Program) : Option Program :=
  (freeArgs p.args).map fun args =>
    { p with bg := false, input := none, output := none, args := args.set 0 .null, argc := 0 }

/-- One line in `execWorker`. -/
def execLine (p : Program) (buffer : List UInt8) : Option Program :=
  (p.parseBuffer buffer).bind clearProgram

end Program

/-! ## The command of a line -/

/-- What a line asks for. -/
@[ext] structure Command where
  args : List (List UInt8)
  input : Option (List UInt8)
  output : Option (List UInt8)
  bg : Bool

namespace Command

def empty : Command where
  args := []
  input := none
  output := none
  bg := false

/-- The updates of the scanner where there is always room for a further argument. -/
def update (line : List UInt8) (q : Command) : Update → Command
  | .setBg => { q with bg := true }
  | .pushArgument startPos endPos => { q with args := q.args ++ [copyText line startPos endPos] }
  | .saveInput startPos endPos => { q with input := some (copyText line startPos endPos) }
  | .saveOutput startPos endPos => { q with output := some (copyText line startPos endPos) }

/-- The command that the scanner reads from a line. -/
def scanned (line : List UInt8) : Command := (updates line).foldl (update line) empty

end Command

/-- The program holds the command, its arguments followed by a null pointer. -/
structure Program.Shows (p : Program) (q : Command) : Prop where
  argc : p.argc = q.args.length
  args : q.args.map .str ++ [.null] <+: p.args
  input : p.input = q.input
  output : p.output = q.output
  bg : p.bg = q.bg

end Shell
