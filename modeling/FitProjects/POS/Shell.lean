import FitProjects.Lib.System
import FitProjects.POS.ShellProgram

/-! # The two threads of the shell

`parseWorker` and `execWorker` of `POS/proj2/main.c`. The first thread reads command lines into the
shared `buffer`, the second one runs them; both use `waitThread` and `signalThread` on one mutex
and one condition variable to take turns. Every statement that the other thread can observe is one
step. `pthread_cond_wait` releases the mutex and falls asleep in one step, `pthread_cond_signal`
wakes the other thread if it is asleep and does nothing otherwise.

The prompt and the child process are left out: a line is executed when `fork` succeeds on the text
that `parseBuffer` has read. An argument that `parseBuffer` writes behind the end of `args` ends the
defined behaviour, and `execWorker` takes no further step. -/

namespace Shell

/-- `BUFFER_SIZE`. -/
def bufferSize : Nat := 513

/-- `COMMAND_MAX_LEN`. -/
def commandMaxLen : Nat := bufferSize - 1

/-- `EXIT_COMMAND`, the bytes of `"exit\n"`. -/
def exitCommand : List UInt8 := [101, 120, 105, 116, 10]

/-- What one call of `read` delivers before the end of the input. -/
structure Line where
  bytes : List UInt8
  ne_nil : bytes ≠ []
  length_le : bytes.length ≤ bufferSize

/-- Program points of `signalThread`. -/
inductive SignalPc
  | lock
  | signal
  | unlock
  deriving DecidableEq

/-- Program points of `waitThread`. -/
inductive WaitPc
  | lock
  | wait
  /-- Blocked inside `pthread_cond_wait`, the mutex released. -/
  | asleep
  /-- Woken, about to take the mutex back inside `pthread_cond_wait`. -/
  | woken
  | unlock
  deriving DecidableEq

/-- Program points of `parseWorker`. -/
inductive ParsePc
  /-- About to evaluate `while(run)`. -/
  | top
  | read
  /-- `read` has returned `bytes`. -/
  | test (bytes : Nat)
  /-- In `signalThread` after `run = false`. -/
  | signalEnd (p : SignalPc)
  /-- In `signalThread` after a line was accepted. -/
  | signalLine (p : SignalPc)
  | waiting (p : WaitPc)
  | done
  deriving DecidableEq

/-- Program points of `execWorker`. -/
inductive ExecPc
  /-- About to evaluate `while(run)`. -/
  | top
  | waiting (p : WaitPc)
  /-- About to evaluate `if(!run)`. -/
  | testRun
  /-- In `parseBuffer`, which has read `text` so far. -/
  | parseBuffer (text : List UInt8)
  /-- An argument or the null pointer was written behind the end of `args`. -/
  | overflow
  | fork (text : List UInt8)
  /-- `fork` has returned; about to wait for the child and to call `clearProgram`. -/
  | waitpid
  | signalDone (p : SignalPc)
  | done
  deriving DecidableEq

inductive Worker
  | parse
  | exec
  deriving DecidableEq

/-- The shared variables, the `program` of `execWorker`, the lines still to be read, the two threads,
and two histories (oldest first): the command lines that `parseWorker` has accepted and those that
were executed. -/
structure State where
  mutex : Option Worker
  run : Bool
  buffer : List UInt8
  program : Program
  input : List Line
  parse : ParsePc
  exec : ExecPc
  accepted : List (List UInt8)
  executed : List (List UInt8)

/-- One of the threads runs on; `fork` may fail. -/
inductive Act
  | parse
  | exec
  | forkFails
  deriving DecidableEq

/-- The initial values of the globals, both threads created. -/
def init (input : List Line) : State where
  mutex := none
  run := true
  buffer := List.replicate bufferSize 0
  program := Program.init
  input := input
  parse := .top
  exec := .top
  accepted := []
  executed := []

/-- `pthread_mutex_lock` by `w`, enabled when the mutex is free, going on with `next`. -/
def lock (s : State) (w : Worker) (next : State → State) : Option State :=
  if s.mutex = none then some (next { s with mutex := some w }) else none

/-- `waitThread`, called by `w`: `goto` sets the program point inside, `ret` the one after it. -/
def waitThread (s : State) (w : Worker) (goto : WaitPc → State → State) (ret : State → State) :
    WaitPc → Option State
  | .lock => lock s w (goto .wait)
  | .wait => some (goto .asleep { s with mutex := none })
  | .asleep => none
  | .woken => lock s w (goto .unlock)
  | .unlock => some (ret { s with mutex := none })

/-- `signalThread`, called by `w`; `wake` wakes the other thread. -/
def signalThread (s : State) (w : Worker) (goto : SignalPc → State → State) (ret : State → State)
    (wake : State → State) : SignalPc → Option State
  | .lock => lock s w (goto .signal)
  | .signal => some (goto .unlock (wake s))
  | .unlock => some (ret { s with mutex := none })

def wakeParse (s : State) : State :=
  { s with parse := if s.parse = .waiting .asleep then .waiting .woken else s.parse }

def wakeExec (s : State) : State :=
  { s with exec := if s.exec = .waiting .asleep then .waiting .woken else s.exec }

/-- `read(fileno(stdin), buffer, BUFFER_SIZE)`: the bytes of the next line replace those at the
start of the buffer, the rest of the buffer stays. At the end of the input nothing is read. -/
def read (s : State) : State :=
  match s.input with
  | [] => { s with parse := .test 0 }
  | line :: input =>
    { s with
      buffer := line.bytes ++ s.buffer.drop line.bytes.length
      input
      parse := .test line.bytes.length }

/-- The tests of `parseWorker` on the bytes just read. -/
def testLine (s : State) (bytes : Nat) : State :=
  if bytes = 0 then { s with run := false, parse := .signalEnd .lock }
  else if commandMaxLen < bytes then { s with parse := .top }
  else if s.buffer.take exitCommand.length = exitCommand then
    { s with run := false, parse := .signalEnd .lock }
  else if s.buffer.head? = some 10 then { s with parse := .top }
  else
    let buffer := s.buffer.set (bytes - 1) 0
    { s with buffer, parse := .signalLine .lock, accepted := s.accepted ++ [cstring buffer] }

/-- The next statement of `parseWorker`; `none` while it is blocked or has ended. -/
def parseWorker (s : State) : Option State :=
  match s.parse with
  | .top => some { s with parse := if s.run then .read else .done }
  | .read => some (read s)
  | .test bytes => some (testLine s bytes)
  | .signalEnd p =>
    signalThread s .parse (fun p s => { s with parse := .signalEnd p })
      (fun s => { s with parse := .done }) wakeExec p
  | .signalLine p =>
    signalThread s .parse (fun p s => { s with parse := .signalLine p })
      (fun s => { s with parse := .waiting .lock }) wakeExec p
  | .waiting p =>
    waitThread s .parse (fun p s => { s with parse := .waiting p })
      (fun s => { s with parse := .top }) p
  | .done => none

/-- `program` becomes what a call has left and `execWorker` goes on with `next`, unless the call has
left the block of `args`. -/
def State.setProgram (s : State) (program : Option Program) (next : ExecPc) : State :=
  match program with
  | some program => { s with program, exec := next }
  | none => { s with exec := .overflow }

/-- The next statement of `execWorker`; `none` while it is blocked or has ended. -/
def execWorker (s : State) : Option State :=
  match s.exec with
  | .top => some { s with exec := if s.run then .waiting .lock else .done }
  | .waiting p =>
    waitThread s .exec (fun p s => { s with exec := .waiting p })
      (fun s => { s with exec := .testRun }) p
  | .testRun => some { s with exec := if s.run then .parseBuffer [] else .done }
  | .parseBuffer text =>
    -- the next byte is read; the text ends at the first NUL
    match (s.buffer.drop text.length).head? with
    | some 0 | none => some (s.setProgram (s.program.parseBuffer text) (.fork text))
    | some c => some { s with exec := .parseBuffer (text ++ [c]) }
  | .fork text => some { s with exec := .waitpid, executed := s.executed ++ [text] }
  | .waitpid => some (s.setProgram s.program.clearProgram (.signalDone .lock))
  | .signalDone p =>
    signalThread s .exec (fun p s => { s with exec := .signalDone p })
      (fun s => { s with exec := .top }) wakeParse p
  | .overflow | .done => none

/-- `fork` returns `-1`: `execWorker` ends the shell and returns. -/
def forkFails (s : State) : Option State :=
  match s.exec with
  | .fork _ => some { s with run := false, exec := .done }
  | _ => none

/-- The shell with the lines `input` on its standard input. -/
def system (input : List Line) : System State Act where
  init := init input
  step
    | s, .parse => parseWorker s
    | s, .exec => execWorker s
    | s, .forkFails => forkFails s

end Shell
