import FitProjects.POS.Shell
import FitProjects.POS.ShellArguments

/-! # The handshake of the shell threads

The condition variable of `Shell` has no predicate beside it, so a signal sent before the other
thread is asleep is lost and both threads end up waiting for each other (`lostSignal`). `Attended`
says of a step that it sends no such signal, that it accepts no line with more arguments than `args`
has room for, and that `fork` does not fail there. In the runs of attended steps the threads go
through the phases of `Phase`, from which the handshake follows. -/

namespace Shell

variable {s s' : State} {a : Act} {input : List Line}

/-- The tests of `parseWorker` accept what `read` has left in the buffer. -/
def Accepts (buffer : List UInt8) (bytes : Nat) : Prop :=
  bytes ≠ 0 ∧ bytes ≤ commandMaxLen ∧ buffer.take exitCommand.length ≠ exitCommand ∧
    buffer.head? ≠ some 10

instance (buffer : List UInt8) (bytes : Nat) : Decidable (Accepts buffer bytes) :=
  inferInstanceAs (Decidable (_ ∧ _))

/-- The number of bytes that are about to be tested. -/
def ParsePc.tested : ParsePc → Option Nat
  | .test bytes => some bytes
  | _ => none

/-- `signalThread` takes the mutex to signal an accepted line only while `execWorker` is asleep, to
signal an executed line only while `parseWorker` is asleep, a line is accepted only when it has at
most three arguments, and `fork` does not fail. -/
def Attended (s : State) : Act → Prop
  | .parse =>
    (s.parse = .signalLine .lock → s.exec = .waiting .asleep) ∧
      ∀ bytes ∈ s.parse.tested, Accepts s.buffer bytes →
        argumentCount (s.buffer.set (bytes - 1) 0) < defaultArgc
  | .exec => s.exec = .signalDone .lock → s.parse = .waiting .asleep
  | .forkFails => False

instance (s : State) : ∀ a, Decidable (Attended s a)
  | .parse => inferInstanceAs (Decidable (_ ∧ _))
  | .exec => inferInstanceAs (Decidable (_ → _))
  | .forkFails => inferInstanceAs (Decidable False)

/-! ## Phases -/

/-- `parseWorker` is on its way to the next line. -/
def ParsePc.Reading : ParsePc → Prop
  | .top | .read | .test _ | .waiting .woken | .waiting .unlock => True
  | _ => False

/-- `parseWorker` has signalled a line and waits for its execution. -/
def ParsePc.Attending : ParsePc → Prop
  | .signalLine .unlock | .waiting .lock | .waiting .wait | .waiting .asleep => True
  | _ => False

def ParsePc.Ending : ParsePc → Prop
  | .signalEnd _ | .done => True
  | _ => False

/-- `execWorker` is on its way to sleep. -/
def ExecPc.Idle : ExecPc → Prop
  | .signalDone .unlock | .top | .waiting .lock | .waiting .wait | .waiting .asleep => True
  | _ => False

/-- `execWorker` has been woken and has not executed `line` yet. -/
def ExecPc.Working (line : List UInt8) : ExecPc → Prop
  | .waiting .woken | .waiting .unlock | .testRun => True
  | .parseBuffer text => text <+: line
  | .fork text => text = line
  | _ => False

/-- `execWorker` has executed a line and not yet signalled it. -/
def ExecPc.Reporting : ExecPc → Prop
  | .waitpid | .signalDone .lock => True
  | _ => False

/-- `execWorker` has been woken, or not, by the end of `parseWorker`. -/
def ExecPc.Leaving : ExecPc → Prop
  | .waiting .woken | .waiting .unlock | .testRun | .done => True
  | pc => pc.Idle

theorem ExecPc.Idle.leaving {pc : ExecPc} (h : pc.Idle) : pc.Leaving := by
  cases pc with
  | waiting p => cases p <;> trivial
  | _ => trivial

/-- The program is empty outside of the execution of a line, and `args` is never overrun. -/
def ExecPc.Keeps (program : Program) : ExecPc → Prop
  | .fork _ | .waitpid => ∃ q, program.Holds q
  | .overflow => False
  | _ => program.Holds .empty

/-- A line is pending in the buffer, and its arguments have room. -/
def Pending (s : State) : Prop :=
  s.accepted = s.executed ++ [cstring s.buffer] ∧ argumentCount s.buffer < defaultArgc

/-- The phases that the two threads go through in turn. -/
inductive Phase (s : State) : Prop
  | reading (parse : s.parse.Reading) (exec : s.exec.Idle) (run : s.run)
      (executed : s.accepted = s.executed)
  | announcing (parse : s.parse = .signalLine .lock) (exec : s.exec.Idle) (run : s.run)
      (pending : Pending s)
  | announced (parse : s.parse = .signalLine .signal) (exec : s.exec = .waiting .asleep)
      (run : s.run) (pending : Pending s)
  | working (parse : s.parse.Attending) (exec : s.exec.Working (cstring s.buffer)) (run : s.run)
      (pending : Pending s)
  | reporting (parse : s.parse.Attending) (exec : s.exec.Reporting) (run : s.run)
      (executed : s.accepted = s.executed)
  | reported (parse : s.parse = .waiting .asleep) (exec : s.exec = .signalDone .signal)
      (run : s.run) (executed : s.accepted = s.executed)
  | ending (parse : s.parse.Ending) (exec : s.exec.Leaving) (run : s.run = false)
      (executed : s.accepted = s.executed)

/-- The invariant of the attended runs. -/
structure TurnInv (s : State) : Prop where
  phase : Phase s
  program : s.exec.Keeps s.program

theorem ExecPc.Leaving.keeps {pc : ExecPc} (h : pc.Leaving) (program : Program) :
    pc.Keeps program ↔ program.Holds .empty := by
  cases pc with
  | fork text | waitpid | overflow => exact h.elim
  | _ => rfl

theorem ExecPc.Idle.keeps {pc : ExecPc} (h : pc.Idle) (program : Program) :
    pc.Keeps program ↔ program.Holds .empty := h.leaving.keeps program

attribute [local simp] ParsePc.Reading ParsePc.Attending ParsePc.Ending
  ExecPc.Idle ExecPc.Working ExecPc.Reporting ExecPc.Leaving

@[simp] theorem lock_eq_some {w : Worker} {next : State → State} :
    lock s w next = some s' ↔ s.mutex = none ∧ next { s with mutex := some w } = s' := by
  simp [lock]

/-! ## Who is inside -/

def ParsePc.holds : ParsePc → Bool
  | .signalEnd .signal | .signalEnd .unlock | .signalLine .signal | .signalLine .unlock
  | .waiting .wait | .waiting .unlock => true
  | _ => false

def ExecPc.holds : ExecPc → Bool
  | .signalDone .signal | .signalDone .unlock | .waiting .wait | .waiting .unlock => true
  | _ => false

/-! ## Ranks -/

/-- Steps that `parseWorker` makes before a pending line of length `n` is executed, at most. -/
def ParsePc.rank (n : Nat) : ParsePc → Nat
  | .signalLine .lock => n + 9
  | .signalLine .signal => n + 8
  | .signalLine .unlock => 3
  | .waiting .lock => 2
  | .waiting .wait => 1
  | _ => 0

/-- Steps that `execWorker` makes before a pending line of length `n` is executed, at most. -/
def ExecPc.rank (n : Nat) : ExecPc → Nat
  | .signalDone .unlock => 4
  | .top => 3
  | .waiting .lock => 2
  | .waiting .wait => 1
  | .waiting .woken => n + 4
  | .waiting .unlock => n + 3
  | .testRun => n + 2
  | .parseBuffer text => n + 1 - text.length
  | _ => 0

def rank (s : State) : Nat :=
  s.parse.rank (cstring s.buffer).length + s.exec.rank (cstring s.buffer).length

theorem TurnInv.init (input : List Line) : TurnInv (init input) where
  phase := .reading trivial trivial rfl rfl
  program := Program.init_holds

/-! ## Steps of `parseWorker` -/

/-- Between the signal and its own sleep `parseWorker` touches nothing but the mutex. -/
theorem parseWorker_attending (hp : s.parse.Attending) (hs : parseWorker s = some s') :
    ∃ mutex parse, parse.Attending ∧ (∀ n, parse.rank n < s.parse.rank n) ∧
      s' = { s with mutex, parse } := by
  cases h : s.parse with
  | signalLine p =>
    cases p with
    | unlock =>
      simp only [parseWorker, h, signalThread, Option.some.injEq] at hs
      exact ⟨none, .waiting .lock, trivial, by simp [ParsePc.rank], hs.symm⟩
    | _ => simp [h] at hp
  | waiting p =>
    cases p with
    | lock =>
      simp only [parseWorker, h, waitThread, lock_eq_some] at hs
      exact ⟨some .parse, .waiting .wait, trivial, by simp [ParsePc.rank], hs.2.symm⟩
    | wait =>
      simp only [parseWorker, h, waitThread, Option.some.injEq] at hs
      exact ⟨none, .waiting .asleep, trivial, by simp [ParsePc.rank], hs.symm⟩
    | asleep => simp [parseWorker, h, waitThread] at hs
    | _ => simp [h] at hp
  | _ => simp [h] at hp

/-- What the tests make of the bytes read: the shell ends, the line is dropped, or it is accepted
and its text is what the buffer then holds. -/
theorem testLine_cases (s : State) (bytes : Nat) :
    testLine s bytes = { s with run := false, parse := .signalEnd .lock } ∨
    testLine s bytes = { s with parse := .top } ∨
    Accepts s.buffer bytes ∧ testLine s bytes =
      { s with
        buffer := s.buffer.set (bytes - 1) 0
        parse := .signalLine .lock
        accepted := s.accepted ++ [cstring (s.buffer.set (bytes - 1) 0)] } := by
  unfold testLine
  split
  · exact .inl rfl
  next hbytes =>
  split
  · exact .inr (.inl rfl)
  next hmax =>
  split
  · exact .inl rfl
  next hexit =>
  split
  · exact .inr (.inl rfl)
  next hempty => exact .inr (.inr ⟨⟨hbytes, Nat.le_of_not_lt hmax, hexit, hempty⟩, rfl⟩)

theorem read_eq (s : State) :
    ∃ buffer input bytes, read s = { s with buffer, input, parse := .test bytes } := by
  unfold read
  split
  · exact ⟨s.buffer, s.input, 0, rfl⟩
  · exact ⟨_, _, _, rfl⟩

theorem phase_of_reading (parse : s.parse.Reading) (exec : s.exec.Idle) (run : s.run)
    (executed : s.accepted = s.executed) (hc : Attended s .parse)
    (hs : parseWorker s = some s') : Phase s' := by
  cases h : s.parse with
  | top =>
    simp only [parseWorker, h, if_pos run, Option.some.injEq] at hs
    subst hs
    exact .reading trivial exec run executed
  | read =>
    obtain ⟨buffer, input, bytes, hread⟩ := read_eq s
    simp only [parseWorker, h, hread, Option.some.injEq] at hs
    subst hs
    exact .reading trivial exec run executed
  | test bytes =>
    simp only [parseWorker, h, Option.some.injEq] at hs
    rcases testLine_cases s bytes with htest | htest | ⟨haccepts, htest⟩
    · rw [htest] at hs
      subst hs
      exact .ending trivial exec.leaving rfl executed
    · rw [htest] at hs
      subst hs
      exact .reading trivial exec run executed
    · rw [htest] at hs
      subst hs
      have hfew := hc.2 bytes (by rw [h]; rfl) haccepts
      exact .announcing rfl exec run ⟨by rw [executed], hfew⟩
  | waiting p =>
    cases p with
    | woken =>
      simp only [parseWorker, h, waitThread, lock_eq_some] at hs
      obtain ⟨-, rfl⟩ := hs
      exact .reading trivial exec run executed
    | unlock =>
      simp only [parseWorker, h, waitThread, Option.some.injEq] at hs
      subst hs
      exact .reading trivial exec run executed
    | _ => simp [h] at parse
  | _ => simp [h] at parse

theorem phase_of_ending (parse : s.parse.Ending) (exec : s.exec.Leaving) (run : s.run = false)
    (executed : s.accepted = s.executed) (hs : parseWorker s = some s') : Phase s' := by
  cases h : s.parse with
  | signalEnd p =>
    cases p with
    | lock =>
      simp only [parseWorker, h, signalThread, lock_eq_some] at hs
      obtain ⟨-, rfl⟩ := hs
      exact .ending trivial exec run executed
    | signal =>
      simp only [parseWorker, h, signalThread, Option.some.injEq] at hs
      subst hs
      refine .ending trivial ?_ run executed
      simp only [wakeExec]
      split
      · trivial
      · exact exec
    | unlock =>
      simp only [parseWorker, h, signalThread, Option.some.injEq] at hs
      subst hs
      exact .ending trivial exec run executed
  | done => simp [parseWorker, h] at hs
  | _ => simp [h] at parse

/-- `parseWorker` takes the mutex for its signal and finds `execWorker` asleep. -/
theorem parseWorker_announcing (hp : s.parse = .signalLine .lock) (hs : parseWorker s = some s') :
    s' = { s with mutex := some .parse, parse := .signalLine .signal } := by
  simp only [parseWorker, hp, signalThread, lock_eq_some] at hs
  exact hs.2.symm

theorem parseWorker_announced (hp : s.parse = .signalLine .signal)
    (he : s.exec = .waiting .asleep) (hs : parseWorker s = some s') :
    s' = { s with parse := .signalLine .unlock, exec := .waiting .woken } := by
  simp only [parseWorker, hp, signalThread, wakeExec, if_pos he, Option.some.injEq] at hs
  exact hs.symm

theorem Phase.parse_step (h : Phase s) (hc : Attended s .parse)
    (hs : parseWorker s = some s') : Phase s' := by
  cases h with
  | reading parse exec run executed => exact phase_of_reading parse exec run executed hc hs
  | announcing parse exec run pending =>
    obtain rfl := parseWorker_announcing parse hs
    exact .announced rfl (hc.1 parse) run pending
  | announced parse exec run pending =>
    obtain rfl := parseWorker_announced parse exec hs
    exact .working trivial trivial run pending
  | working parse exec run pending =>
    obtain ⟨mutex, pc, hpc, -, rfl⟩ := parseWorker_attending parse hs
    exact .working hpc exec run pending
  | reporting parse exec run executed =>
    obtain ⟨mutex, pc, hpc, -, rfl⟩ := parseWorker_attending parse hs
    exact .reporting hpc exec run executed
  | reported parse => simp [parseWorker, parse, waitThread] at hs
  | ending parse exec run executed => exact phase_of_ending parse exec run executed hs

/-- `parseWorker` touches of `execWorker` only the sleep it may end, and executes nothing. -/
theorem parseWorker_frame (hs : parseWorker s = some s') :
    s'.executed = s.executed ∧ s'.program = s.program ∧
      (s'.exec = s.exec ∨ s.exec = .waiting .asleep ∧ s'.exec = .waiting .woken) := by
  cases h : s.parse with
  | top =>
    simp only [parseWorker, h, Option.some.injEq] at hs
    subst hs
    exact ⟨rfl, rfl, .inl rfl⟩
  | read =>
    obtain ⟨buffer, input, bytes, hread⟩ := read_eq s
    simp only [parseWorker, h, hread, Option.some.injEq] at hs
    subst hs
    exact ⟨rfl, rfl, .inl rfl⟩
  | test bytes =>
    simp only [parseWorker, h, Option.some.injEq] at hs
    obtain htest | htest | ⟨-, htest⟩ := testLine_cases s bytes <;>
      (rw [htest] at hs; subst hs; exact ⟨rfl, rfl, .inl rfl⟩)
  | signalEnd p | signalLine p =>
    cases p with
    | signal =>
      simp only [parseWorker, h, signalThread, wakeExec, Option.some.injEq] at hs
      subst hs
      by_cases he : s.exec = .waiting .asleep <;> simp [he]
    | _ =>
      simp only [parseWorker, h, signalThread, lock_eq_some, Option.some.injEq] at hs
      simp [← hs]
  | waiting p => cases p <;> simp_all [parseWorker, waitThread] <;> simp [← hs]
  | done => simp [parseWorker, h] at hs

/-! ## Steps of `execWorker` -/

/-- On its way to sleep `execWorker` touches nothing but the mutex. -/
theorem execWorker_idle (he : s.exec.Idle) (run : s.run) (hs : execWorker s = some s') :
    ∃ mutex exec, exec.Idle ∧ (∀ n, exec.rank n < s.exec.rank n) ∧
      s' = { s with mutex, exec } := by
  cases h : s.exec with
  | signalDone p =>
    cases p with
    | unlock =>
      simp only [execWorker, h, signalThread, Option.some.injEq] at hs
      exact ⟨none, .top, trivial, by simp [ExecPc.rank], hs.symm⟩
    | _ => simp [h] at he
  | top =>
    simp only [execWorker, h, if_pos run, Option.some.injEq] at hs
    exact ⟨s.mutex, .waiting .lock, trivial, by simp [ExecPc.rank], hs.symm⟩
  | waiting p =>
    cases p with
    | lock =>
      simp only [execWorker, h, waitThread, lock_eq_some] at hs
      exact ⟨some .exec, .waiting .wait, trivial, by simp [ExecPc.rank], hs.2.symm⟩
    | wait =>
      simp only [execWorker, h, waitThread, Option.some.injEq] at hs
      exact ⟨none, .waiting .asleep, trivial, by simp [ExecPc.rank], hs.symm⟩
    | asleep => simp [execWorker, h, waitThread] at hs
    | _ => simp [h] at he
  | _ => simp [h] at he

/-- The end of the text is found: there is room for the arguments of a line of few of them. -/
theorem parseBuffer_of_end {text : List UInt8} (hk : s.program.Holds .empty)
    (hfew : argumentCount s.buffer < defaultArgc) (hend : text = cstring s.buffer) :
    ∃ program, s.program.parseBuffer text = some program ∧ ∃ q, program.Holds q := by
  have hcount : argumentCount text = argumentCount s.buffer := by
    rw [argumentCount, argumentCount, hend, cstring_eq_self (zero_notMem_cstring s.buffer)]
  obtain ⟨program, hprogram, hholds⟩ := hk.parseBuffer (hcount ▸ hfew)
  exact ⟨program, hprogram, _, hholds⟩

/-- A woken `execWorker` gets closer to the execution of the line in the buffer, or executes it. -/
theorem execWorker_working (he : s.exec.Working (cstring s.buffer)) (run : s.run)
    (hk : s.exec.Keeps s.program) (hfew : argumentCount s.buffer < defaultArgc)
    (hs : execWorker s = some s') :
    (∃ mutex program exec, exec.Working (cstring s.buffer) ∧ exec.Keeps program ∧
      exec.rank (cstring s.buffer).length < s.exec.rank (cstring s.buffer).length ∧
      s' = { s with mutex, program, exec }) ∨
    s' = { s with exec := .waitpid, executed := s.executed ++ [cstring s.buffer] } ∧
      ∃ q, s.program.Holds q := by
  cases h : s.exec with
  | waiting p =>
    rw [h] at hk
    cases p with
    | woken =>
      simp only [execWorker, h, waitThread, lock_eq_some] at hs
      exact .inl ⟨some .exec, s.program, .waiting .unlock, trivial, hk, by simp [ExecPc.rank],
        hs.2.symm⟩
    | unlock =>
      simp only [execWorker, h, waitThread, Option.some.injEq] at hs
      exact .inl ⟨none, s.program, .testRun, trivial, hk, by simp [ExecPc.rank], hs.symm⟩
    | _ => simp [h] at he
  | testRun =>
    rw [h] at hk
    simp only [execWorker, h, if_pos run, Option.some.injEq] at hs
    exact .inl ⟨s.mutex, s.program, .parseBuffer [], List.nil_prefix, hk, by simp [ExecPc.rank],
      hs.symm⟩
  | parseBuffer text =>
    rw [h] at hk
    simp only [h, ExecPc.Working] at he
    have hlen := he.length_le
    simp only [execWorker, h] at hs
    split at hs
    · rename_i hc
      have hend := eq_cstring_of_end he (by simp [hc])
      obtain ⟨program, hprogram, hholds⟩ := parseBuffer_of_end hk hfew hend
      rw [hprogram] at hs
      exact .inl ⟨s.mutex, program, .fork text, hend, hholds, by grind [ExecPc.rank],
        (Option.some.inj hs).symm⟩
    · rename_i hc
      have hend := eq_cstring_of_end he (by simp [hc])
      obtain ⟨program, hprogram, hholds⟩ := parseBuffer_of_end hk hfew hend
      rw [hprogram] at hs
      exact .inl ⟨s.mutex, program, .fork text, hend, hholds, by grind [ExecPc.rank],
        (Option.some.inj hs).symm⟩
    · rename_i c h0 hc
      have hpre := append_prefix_cstring he hc (by simpa using h0)
      have hlen' := hpre.length_le
      refine .inl ⟨s.mutex, s.program, .parseBuffer (text ++ [c]), hpre, hk, ?_,
        by simpa using hs.symm⟩
      simp only [List.length_append, List.length_singleton] at hlen'
      simp only [ExecPc.rank, List.length_append, List.length_singleton]
      omega
  | fork text =>
    rw [h] at hk
    simp only [h, ExecPc.Working] at he
    simp only [execWorker, h, Option.some.injEq] at hs
    exact .inr ⟨by rw [← hs, he], hk⟩
  | _ => simp [h] at he

theorem turnInv_of_reporting (parse : s.parse.Attending) (exec : s.exec.Reporting) (run : s.run)
    (executed : s.accepted = s.executed) (hk : s.exec.Keeps s.program) (hc : Attended s .exec)
    (hs : execWorker s = some s') : TurnInv s' := by
  cases h : s.exec with
  | waitpid =>
    rw [h] at hk
    obtain ⟨q, hq⟩ := hk
    obtain ⟨program, hclear, hempty⟩ := hq.clearProgram
    simp only [execWorker, h, hclear, Option.some.injEq] at hs
    subst hs
    exact ⟨.reporting parse trivial run executed, hempty⟩
  | signalDone p =>
    rw [h] at hk
    cases p with
    | lock =>
      simp only [execWorker, h, signalThread, lock_eq_some] at hs
      obtain ⟨-, rfl⟩ := hs
      exact ⟨.reported (hc h) rfl run executed, hk⟩
    | _ => simp [h] at exec
  | _ => simp [h] at exec

/-- Once `run` is cleared, `execWorker` falls asleep or leaves its loop without executing. -/
theorem execWorker_leaving (he : s.exec.Leaving) (run : s.run = false)
    (hs : execWorker s = some s') :
    ∃ mutex exec, exec.Leaving ∧ s' = { s with mutex, exec } := by
  cases h : s.exec with
  | signalDone p =>
    cases p with
    | unlock =>
      simp only [execWorker, h, signalThread, Option.some.injEq] at hs
      exact ⟨none, .top, trivial, hs.symm⟩
    | _ => simp [h] at he
  | top =>
    simp only [execWorker, h, run, Bool.false_eq_true, if_false, Option.some.injEq] at hs
    exact ⟨s.mutex, .done, trivial, by simp [← hs, run]⟩
  | testRun =>
    simp only [execWorker, h, run, Bool.false_eq_true, if_false, Option.some.injEq] at hs
    exact ⟨s.mutex, .done, trivial, by simp [← hs, run]⟩
  | waiting p =>
    cases p with
    | lock =>
      simp only [execWorker, h, waitThread, lock_eq_some] at hs
      exact ⟨some .exec, .waiting .wait, trivial, hs.2.symm⟩
    | wait =>
      simp only [execWorker, h, waitThread, Option.some.injEq] at hs
      exact ⟨none, .waiting .asleep, trivial, hs.symm⟩
    | asleep => simp [execWorker, h, waitThread] at hs
    | woken =>
      simp only [execWorker, h, waitThread, lock_eq_some] at hs
      exact ⟨some .exec, .waiting .unlock, trivial, hs.2.symm⟩
    | unlock =>
      simp only [execWorker, h, waitThread, Option.some.injEq] at hs
      exact ⟨none, .testRun, trivial, hs.symm⟩
  | done => simp [execWorker, h] at hs
  | _ => simp [h] at he

theorem TurnInv.exec_step (h : TurnInv s) (hc : Attended s .exec)
    (hs : execWorker s = some s') : TurnInv s' := by
  obtain ⟨hphase, hk⟩ := h
  cases hphase with
  | reading parse exec run executed =>
    obtain ⟨mutex, pc, hpc, -, rfl⟩ := execWorker_idle exec run hs
    exact ⟨.reading parse hpc run executed, (hpc.keeps _).mpr ((exec.keeps _).mp hk)⟩
  | announcing parse exec run pending =>
    obtain ⟨mutex, pc, hpc, -, rfl⟩ := execWorker_idle exec run hs
    exact ⟨.announcing parse hpc run pending, (hpc.keeps _).mpr ((exec.keeps _).mp hk)⟩
  | announced parse exec => simp [execWorker, exec, waitThread] at hs
  | working parse exec run pending =>
    obtain ⟨mutex, program, pc, hpc, hkeeps, -, rfl⟩ | ⟨rfl, hholds⟩ :=
      execWorker_working exec run hk pending.2 hs
    · exact ⟨.working parse hpc run pending, hkeeps⟩
    · exact ⟨.reporting parse trivial run pending.1, hholds⟩
  | reporting parse exec run executed =>
    exact turnInv_of_reporting parse exec run executed hk hc hs
  | reported parse exec run executed =>
    rw [exec] at hk
    simp only [execWorker, exec, signalThread, wakeParse, if_pos parse,
      Option.some.injEq] at hs
    subst hs
    exact ⟨.reading trivial trivial run executed, hk⟩
  | ending parse exec run executed =>
    obtain ⟨mutex, pc, hpc, rfl⟩ := execWorker_leaving exec run hs
    exact ⟨.ending parse hpc run executed, (hpc.keeps _).mpr ((exec.keeps _).mp hk)⟩

theorem TurnInv.step (h : TurnInv s) (hc : Attended s a) (hs : (system input).step s a = some s') :
    TurnInv s' := by
  cases a with
  | parse =>
    obtain ⟨-, hprogram, hexec⟩ := parseWorker_frame hs
    refine ⟨h.phase.parse_step hc hs, ?_⟩
    rw [hprogram]
    have hk := h.program
    rcases hexec with heq | ⟨heq, heq'⟩
    · rwa [heq]
    · rw [heq] at hk
      rwa [heq']
  | exec => exact h.exec_step hc hs
  | forkFails => exact hc.elim

theorem turnInv_of_reachable (h : (system input).ReachableUnder Attended s) : TurnInv s :=
  h.invariant (TurnInv.init input) TurnInv.step

/-! ## A pending line is executed -/

/-- While a line is pending, every attended step executes it or comes closer to its execution. -/
theorem TurnInv.pending_step (h : TurnInv s) (hne : s.accepted ≠ s.executed) (hc : Attended s a)
    (hs : (system input).step s a = some s') :
    s'.executed = s.accepted ∨
      s'.accepted = s.accepted ∧ s'.accepted ≠ s'.executed ∧ rank s' < rank s := by
  cases h.phase with
  | announcing parse exec run pending =>
    cases a with
    | parse =>
      obtain rfl := parseWorker_announcing parse hs
      exact .inr ⟨rfl, hne, by simp [rank, parse, ParsePc.rank]⟩
    | exec =>
      obtain ⟨mutex, pc, -, hlt, rfl⟩ := execWorker_idle exec run hs
      exact .inr ⟨rfl, hne, Nat.add_lt_add_left (hlt _) _⟩
    | forkFails => exact hc.elim
  | announced parse exec run pending =>
    cases a with
    | parse =>
      obtain rfl := parseWorker_announced parse exec hs
      refine .inr ⟨rfl, hne, ?_⟩
      simp only [rank, parse, exec, ParsePc.rank, ExecPc.rank]
      omega
    | exec => simp [system, execWorker, exec, waitThread] at hs
    | forkFails => exact hc.elim
  | working parse exec run pending =>
    cases a with
    | parse =>
      obtain ⟨mutex, pc, -, hlt, rfl⟩ := parseWorker_attending parse hs
      exact .inr ⟨rfl, hne, Nat.add_lt_add_right (hlt _) _⟩
    | exec =>
      obtain ⟨mutex, program, pc, -, -, hlt, rfl⟩ | ⟨rfl, -⟩ :=
        execWorker_working exec run h.program pending.2 hs
      · exact .inr ⟨rfl, hne, Nat.add_lt_add_left hlt _⟩
      · exact .inl pending.1.symm
    | forkFails => exact hc.elim
  | reading parse exec run executed => exact absurd executed hne
  | reporting parse exec run executed => exact absurd executed hne
  | reported parse exec run executed => exact absurd executed hne
  | ending parse exec run executed => exact absurd executed hne

theorem setProgram_eq (s : State) (program : Option Program) (next : ExecPc) :
    ∃ program' exec, s.setProgram program next = { s with program := program', exec } ∧
      (exec = next ∨ exec = .overflow) := by
  cases program with
  | some program => exact ⟨program, next, rfl, .inl rfl⟩
  | none => exact ⟨s.program, .overflow, rfl, .inr rfl⟩

/-- What becomes of the text and of the program does not touch the rest of the state, and the mutex
is not taken there. -/
theorem execWorker_program (h : s.exec = .waitpid ∨ ∃ text, s.exec = .parseBuffer text)
    (hs : execWorker s = some s') :
    ∃ program exec, exec.holds = false ∧ s' = { s with program, exec } := by
  rcases h with h | ⟨text, h⟩
  · simp only [execWorker, h, Option.some.injEq] at hs
    obtain ⟨program, exec, heq, rfl | rfl⟩ := setProgram_eq s s.program.clearProgram _
    · exact ⟨program, _, rfl, hs ▸ heq⟩
    · exact ⟨program, _, rfl, hs ▸ heq⟩
  · simp only [execWorker, h] at hs
    obtain ⟨program, exec, heq, rfl | rfl⟩ :=
      setProgram_eq s (s.program.parseBuffer text) (.fork text)
    all_goals split at hs <;> obtain rfl := Option.some.inj hs
    all_goals first | exact ⟨program, _, rfl, heq⟩ | exact ⟨s.program, _, rfl, rfl⟩

/-- `execWorker` touches of `parseWorker` only the sleep it may end, and never forgets a line. -/
theorem execWorker_frame (hs : execWorker s = some s') :
    s.executed <+: s'.executed ∧
      (s'.parse = s.parse ∨ s.parse = .waiting .asleep ∧ s'.parse = .waiting .woken) := by
  cases h : s.exec with
  | fork text =>
    simp only [execWorker, h, Option.some.injEq] at hs
    subst hs
    exact ⟨List.prefix_append _ _, .inl rfl⟩
  | signalDone p =>
    cases p with
    | signal =>
      simp only [execWorker, h, signalThread, wakeParse, Option.some.injEq] at hs
      subst hs
      by_cases he : s.parse = .waiting .asleep <;> simp [he]
    | _ =>
      simp only [execWorker, h, signalThread, lock_eq_some, Option.some.injEq] at hs
      simp [← hs]
  | waiting p =>
    cases p <;>
      simp only [execWorker, h, waitThread, lock_eq_some, Option.some.injEq, reduceCtorEq] at hs <;>
      simp [← hs]
  | waitpid =>
    obtain ⟨program, exec, -, rfl⟩ := execWorker_program (.inl h) hs
    exact ⟨List.prefix_refl _, .inl rfl⟩
  | parseBuffer text =>
    obtain ⟨program, exec, -, rfl⟩ := execWorker_program (.inr ⟨text, h⟩) hs
    exact ⟨List.prefix_refl _, .inl rfl⟩
  | top | testRun =>
    simp only [execWorker, h, Option.some.injEq] at hs
    simp [← hs]
  | overflow | done => simp [execWorker, h] at hs

theorem forkFails_eq (hs : forkFails s = some s') :
    s' = { s with run := false, exec := .done } := by
  unfold forkFails at hs
  split at hs
  · exact (Option.some.inj hs).symm
  · cases hs

/-- Executed lines stay executed. -/
theorem executed_step (hs : (system input).step s a = some s') : s.executed <+: s'.executed := by
  cases a with
  | parse =>
    exact (parseWorker_frame hs).1 ▸ List.prefix_refl s.executed
  | exec => exact (execWorker_frame hs).1
  | forkFails =>
    obtain rfl := forkFails_eq hs
    exact List.prefix_refl _

theorem executed_runs {l : List Act} (hr : ((system input).restrict Attended).runs s l = some s') :
    s.executed <+: s'.executed := by
  induction l generalizing s with
  | nil => cases hr; exact List.prefix_refl _
  | cons a l ih =>
    obtain ⟨t, ht, hr⟩ := Option.bind_eq_some_iff.mp hr
    simp only [System.restrict, Option.ite_none_right_eq_some] at ht
    exact (executed_step ht.2).trans (ih hr)

/-- Every attended run that is long enough executes the pending line. -/
theorem TurnInv.executed_of_rank_lt {l : List Act} (h : TurnInv s) (hn : rank s < l.length)
    (hr : ((system input).restrict Attended).runs s l = some s') : s.accepted <+: s'.executed := by
  by_cases hne : s.accepted = s.executed
  · rw [hne]
    exact executed_runs hr
  induction l generalizing s with
  | nil => simp at hn
  | cons a l ih =>
    obtain ⟨t, ht, hr⟩ := Option.bind_eq_some_iff.mp hr
    simp only [System.restrict, Option.ite_none_right_eq_some] at ht
    rcases h.pending_step hne ht.1 ht.2 with hdone | ⟨hacc, hne', hlt⟩
    · rw [← hdone]
      exact executed_runs hr
    · rw [← hacc]
      exact ih (h.step ht.1 ht.2) (by simp at hn; omega) hr hne'

/-! ## The mutex -/

/-- The mutex is taken exactly by the thread that is inside. -/
structure MutexInv (s : State) : Prop where
  parse : s.mutex = some .parse ↔ s.parse.holds
  exec : s.mutex = some .exec ↔ s.exec.holds

/-- What a step of `w` does to the mutex and to whether `w` is inside. -/
inductive MutexMove (w : Worker) : Option Worker → Bool → Option Worker → Bool → Prop
  | keep : MutexMove w m b m b
  | lock : MutexMove w none false (some w) true
  | unlock : MutexMove w m true none false

theorem parseWorker_move (hs : parseWorker s = some s') :
    MutexMove .parse s.mutex s.parse.holds s'.mutex s'.parse.holds := by
  cases h : s.parse with
  | top =>
    simp only [parseWorker, h, Option.some.injEq] at hs
    subst hs
    by_cases hrun : s.run <;> (simp only [hrun]; exact .keep)
  | read =>
    obtain ⟨buffer, input, bytes, hread⟩ := read_eq s
    simp only [parseWorker, h, hread, Option.some.injEq] at hs
    subst hs
    exact .keep
  | test bytes =>
    simp only [parseWorker, h, Option.some.injEq] at hs
    obtain htest | htest | ⟨-, htest⟩ := testLine_cases s bytes <;>
      (rw [htest] at hs; subst hs; exact .keep)
  | signalEnd p | signalLine p =>
    cases p with
    | lock =>
      simp only [parseWorker, h, signalThread, lock_eq_some] at hs
      obtain ⟨hm, rfl⟩ := hs
      rw [hm]
      exact .lock
    | signal =>
      simp only [parseWorker, h, signalThread, wakeExec, Option.some.injEq] at hs
      subst hs
      exact .keep
    | unlock =>
      simp only [parseWorker, h, signalThread, Option.some.injEq] at hs
      subst hs
      exact .unlock
  | waiting p =>
    cases p with
    | lock | woken =>
      simp only [parseWorker, h, waitThread, lock_eq_some] at hs
      obtain ⟨hm, rfl⟩ := hs
      rw [hm]
      exact .lock
    | wait | unlock =>
      simp only [parseWorker, h, waitThread, Option.some.injEq] at hs
      subst hs
      exact .unlock
    | asleep => simp [parseWorker, h, waitThread] at hs
  | done => simp [parseWorker, h] at hs

theorem execWorker_move (hs : execWorker s = some s') :
    MutexMove .exec s.mutex s.exec.holds s'.mutex s'.exec.holds := by
  cases h : s.exec with
  | top | testRun =>
    simp only [execWorker, h, Option.some.injEq] at hs
    subst hs
    by_cases hrun : s.run <;> (simp only [hrun]; exact .keep)
  | waitpid =>
    obtain ⟨program, exec, hholds, rfl⟩ := execWorker_program (.inl h) hs
    rw [hholds]
    exact .keep
  | parseBuffer text =>
    obtain ⟨program, exec, hholds, rfl⟩ := execWorker_program (.inr ⟨text, h⟩) hs
    rw [hholds]
    exact .keep
  | fork text =>
    simp only [execWorker, h, Option.some.injEq] at hs
    subst hs
    exact .keep
  | signalDone p =>
    cases p with
    | lock =>
      simp only [execWorker, h, signalThread, lock_eq_some] at hs
      obtain ⟨hm, rfl⟩ := hs
      rw [hm]
      exact .lock
    | signal =>
      simp only [execWorker, h, signalThread, wakeParse, Option.some.injEq] at hs
      subst hs
      exact .keep
    | unlock =>
      simp only [execWorker, h, signalThread, Option.some.injEq] at hs
      subst hs
      exact .unlock
  | waiting p =>
    cases p with
    | lock | woken =>
      simp only [execWorker, h, waitThread, lock_eq_some] at hs
      obtain ⟨hm, rfl⟩ := hs
      rw [hm]
      exact .lock
    | wait | unlock =>
      simp only [execWorker, h, waitThread, Option.some.injEq] at hs
      subst hs
      exact .unlock
    | asleep => simp [execWorker, h, waitThread] at hs
  | overflow | done => simp [execWorker, h] at hs

theorem MutexInv.step (h : MutexInv s) (hs : (system input).step s a = some s') :
    MutexInv s' := by
  obtain ⟨hp, he⟩ := h
  cases a with
  | parse =>
    have hmove := parseWorker_move hs
    have hexec : s'.exec.holds = s.exec.holds := by
      rcases (parseWorker_frame hs).2.2 with heq | ⟨heq, heq'⟩
      · rw [heq]
      · rw [heq, heq']; rfl
    generalize s.mutex = m at *
    generalize s.parse.holds = b at *
    generalize hm' : s'.mutex = m' at *
    generalize hb' : s'.parse.holds = b' at *
    cases hmove with
    | keep => exact ⟨by rw [hm', hb', hp], by rw [hm', hexec, he]⟩
    | lock => exact ⟨by simp [hm', hb'], by simp [hm', hexec, ← he]⟩
    | unlock => exact ⟨by simp [hm', hb'], by simp [hm', hexec, ← he, hp.mpr rfl]⟩
  | exec =>
    have hmove := execWorker_move hs
    have hparse : s'.parse.holds = s.parse.holds := by
      rcases (execWorker_frame hs).2 with heq | ⟨heq, heq'⟩
      · rw [heq]
      · rw [heq, heq']; rfl
    generalize s.mutex = m at *
    generalize s.exec.holds = b at *
    generalize hm' : s'.mutex = m' at *
    generalize hb' : s'.exec.holds = b' at *
    cases hmove with
    | keep => exact ⟨by rw [hm', hparse, hp], by rw [hm', hb', he]⟩
    | lock => exact ⟨by simp [hm', hparse, ← hp], by simp [hm', hb']⟩
    | unlock => exact ⟨by simp [hm', hparse, ← hp, he.mpr rfl], by simp [hm', hb']⟩
  | forkFails =>
    simp only [system, forkFails] at hs
    split at hs
    · rename_i hfork
      obtain rfl := Option.some.inj hs
      exact ⟨hp, by rw [he, hfork]; rfl⟩
    · cases hs

theorem mutexInv_of_reachable (h : (system input).ReachableUnder Attended s) : MutexInv s :=
  h.invariant ⟨by simp [system, init, ParsePc.holds], by simp [system, init, ExecPc.holds]⟩
    fun hi _ hs => hi.step hs

theorem MutexInv.free (h : MutexInv s) (hp : s.parse.holds = false) (he : s.exec.holds = false) :
    s.mutex = none := by
  cases hm : s.mutex with
  | none => rfl
  | some w =>
    cases w with
    | parse => simp [h.parse.mp hm] at hp
    | exec => simp [h.exec.mp hm] at he

theorem parseWorker_of_holds (h : s.parse.holds) : ∃ s', parseWorker s = some s' := by
  cases hp : s.parse with
  | signalEnd p | signalLine p =>
    cases p with
    | lock => simp [hp, ParsePc.holds] at h
    | _ => simp [parseWorker, hp, signalThread]
  | waiting p => cases p <;> simp [hp, ParsePc.holds, parseWorker, waitThread] at h ⊢
  | _ => simp [hp, ParsePc.holds] at h

/-- Where no line is tested, only the signal of a line has to be attended. -/
theorem attended_parse (h : s.parse.tested = none)
    (hsignal : s.parse = .signalLine .lock → s.exec = .waiting .asleep) : Attended s .parse :=
  ⟨hsignal, fun _ hb => by rw [h] at hb; cases hb⟩

/-- While a line is pending, some attended step is possible. -/
theorem Phase.exists_step (h : Phase s) (hm : MutexInv s) (hne : s.accepted ≠ s.executed) :
    ∃ a s', Attended s a ∧ (system input).step s a = some s' := by
  cases h with
  | announcing parse exec run pending =>
    have hparse : s.parse.holds = false := by rw [parse]; rfl
    cases he : s.exec with
    | signalDone p =>
      cases p with
      | unlock => exact ⟨.exec, by simp [Attended, system, execWorker, he, signalThread]⟩
      | _ => simp [he] at exec
    | top => exact ⟨.exec, by simp [Attended, system, execWorker, he]⟩
    | waiting p =>
      cases p with
      | lock =>
        have hfree := hm.free hparse (by rw [he]; rfl)
        exact ⟨.exec, by simp [Attended, system, execWorker, he, waitThread, lock, hfree]⟩
      | wait => exact ⟨.exec, by simp [Attended, system, execWorker, he, waitThread]⟩
      | asleep =>
        have hfree := hm.free hparse (by rw [he]; rfl)
        refine ⟨.parse, { s with mutex := some .parse, parse := .signalLine .signal },
          attended_parse (by rw [parse]; rfl) fun _ => he, ?_⟩
        simp [system, parseWorker, parse, signalThread, lock, hfree]
      | _ => simp [he] at exec
    | _ => simp [he] at exec
  | announced parse exec run pending =>
    obtain ⟨s', hs⟩ := parseWorker_of_holds (s := s) (by rw [parse]; rfl)
    exact ⟨.parse, s', attended_parse (by rw [parse]; rfl) (by simp [parse]), hs⟩
  | working parse exec run pending =>
    cases hh : s.parse.holds with
    | true =>
      obtain ⟨s', hs⟩ := parseWorker_of_holds hh
      refine ⟨.parse, s', attended_parse ?_ fun hp => by simp [hp, ParsePc.holds] at hh, hs⟩
      cases hp : s.parse with
      | test bytes => simp [hp] at parse
      | _ => rfl
    | false =>
      cases he : s.exec with
      | waiting p =>
        cases p with
        | woken =>
          have hfree := hm.free hh (by rw [he]; rfl)
          exact ⟨.exec, by simp [Attended, system, execWorker, he, waitThread, lock, hfree]⟩
        | unlock => exact ⟨.exec, by simp [Attended, system, execWorker, he, waitThread]⟩
        | _ => simp [he] at exec
      | testRun => exact ⟨.exec, by simp [Attended, system, execWorker, he]⟩
      | parseBuffer text =>
        refine ⟨.exec, ?_⟩
        simp only [Attended, system, execWorker, he]
        split <;> simp
      | fork text => exact ⟨.exec, by simp [Attended, system, execWorker, he]⟩
      | _ => simp [he] at exec
  | reading parse exec run executed => exact absurd executed hne
  | reporting parse exec run executed => exact absurd executed hne
  | reported parse exec run executed => exact absurd executed hne
  | ending parse exec run executed => exact absurd executed hne

/-! ## The handshake -/

/-- What the two threads owe each other: they are not both blocked in `waitThread`; the executed
lines are the accepted ones, in order and each once, up to the last one, and all of them when
`buffer` is about to be overwritten; a line that is not executed yet keeps a step possible and is
executed by every continuation that is long enough. -/
structure Handshake (input : List Line) (s : State) : Prop where
  awake : ¬ (s.parse = .waiting .asleep ∧ s.exec = .waiting .asleep)
  once : s.accepted = s.executed ∨ s.accepted = s.executed ++ [cstring s.buffer]
  before_read : s.parse = .read → s.accepted = s.executed
  enabled : s.accepted ≠ s.executed → ∃ a s', Attended s a ∧ (system input).step s a = some s'
  executed : ∃ n, ∀ l s', ((system input).restrict Attended).runs s l = some s' → n < l.length →
    s.accepted <+: s'.executed

theorem handshake_of_attended (h : (system input).ReachableUnder Attended s) :
    Handshake input s where
  awake := by
    rintro ⟨hp, he⟩
    cases (turnInv_of_reachable h).phase <;> simp_all
  once := by
    cases (turnInv_of_reachable h).phase with
    | announcing _ _ _ pending | announced _ _ _ pending | working _ _ _ pending =>
      exact .inr pending.1
    | reading _ _ _ executed | reporting _ _ _ executed | reported _ _ _ executed
    | ending _ _ _ executed => exact .inl executed
  before_read := by
    intro hp
    cases (turnInv_of_reachable h).phase <;> simp_all
  enabled := (turnInv_of_reachable h).phase.exists_step (mutexInv_of_reachable h)
  executed := ⟨rank s, fun _ _ hr hn => (turnInv_of_reachable h).executed_of_rank_lt hn hr⟩

/-- The line `"ls\n"`. -/
def lsLine : Line := ⟨[108, 115, 10], by simp, by decide⟩

/-- The steps of an attended run on two lines. -/
def attendedRun : List Act :=
  .replicate 3 .exec ++ .replicate 8 .parse ++ .replicate 14 .exec ++ .replicate 10 .parse ++
    .replicate 14 .exec

theorem handshake_of_attended_twoLines :
    ∃ s, Handshake [lsLine, lsLine] s ∧ s.executed = [[108, 115], [108, 115]] := by
  have hrun : (((system [lsLine, lsLine]).restrict Attended).runs (init [lsLine, lsLine])
      attendedRun).any (fun s => s.executed = [[108, 115], [108, 115]]) = true := by
    decide +kernel
  obtain ⟨s, hs, hp⟩ := System.exists_runs hrun
  have hreach := System.Reachable.of_restrict (System.Reachable.runs .init hs)
  exact ⟨s, handshake_of_attended hreach, by simpa using hp⟩

/-- A signal sent before `execWorker` is asleep is lost: the line stays unexecuted while both
threads wait. -/
theorem lostSignal :
    ∃ s, (system [lsLine]).Reachable s ∧ s.parse = .waiting .asleep ∧ s.exec = .waiting .asleep ∧
      s.accepted = [[108, 115]] ∧ s.executed = [] := by
  have hrun : ((system [lsLine]).runs (init [lsLine])
      (.replicate 8 .parse ++ .replicate 3 .exec)).any (fun s =>
        s.parse = .waiting .asleep ∧ s.exec = .waiting .asleep ∧
          s.accepted = [[108, 115]] ∧ s.executed = []) = true := by
    decide +kernel
  obtain ⟨s, hs, hp⟩ := System.exists_runs hrun
  exact ⟨s, System.Reachable.runs .init hs, by simpa using hp⟩

end Shell
