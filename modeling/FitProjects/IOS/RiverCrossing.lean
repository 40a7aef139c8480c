import FitProjects.Lib.System
import Mathlib.Data.Fintype.Prod
import Mathlib.Data.Fintype.Basic
import Mathlib.Tactic.SplitIfs

/-! # River crossing

The processes of `IOS/proj2/rivercrossing.c`: `p` hackers and `p` serfs, forked by the two
generators in any order, each running `member`. Every `sem_wait` and every `sem_post` is a step of
its own, also inside the loops that post a semaphore several times; the statements on shared memory
between two semaphore calls are one step, since the semaphore `EXCLUSIVE` protects them.

`usleep` takes no step: any other process may run between two steps. The process identifiers are
bounded by `pid_t`, so that the `int` counters of processes and lines are natural numbers here. -/

namespace RiverCrossing

/-- `isHacker`. -/
inductive Kind
  | hacker
  | serf
  deriving DecidableEq

instance : Fintype Kind := ⟨{.hacker, .serf}, fun K => by cases K <;> simp⟩

theorem Kind.forall {P : Kind → Prop} : (∀ K, P K) ↔ P .hacker ∧ P .serf :=
  ⟨fun h => ⟨h _, h _⟩, fun h K => by cases K; exacts [h.1, h.2]⟩

/-- A person: the kind, and the `id` given by the generator less one. -/
abbrev Pid (p : Nat) := Kind × Fin p

/-- `enum Esemaphore`. -/
inductive Esemaphore
  | exclusive
  | hacker
  | serf
  | molo
  | boarding
  | landing
  | finish
  | captain
  deriving DecidableEq

/-- `enum Esharedmemory`. -/
inductive Esharedmemory
  | counter
  | hackersCount
  | serfsCount
  | waitingMembers
  | waitingToFinish
  deriving DecidableEq

/-- The semaphore a person of this kind waits on to board, `HACKER` or `SERF`. -/
def Kind.boat : Kind → Esemaphore
  | hacker => .hacker
  | serf => .serf

/-- The counter of the persons of this kind on the pier. -/
def Kind.count : Kind → Esharedmemory
  | hacker => .hackersCount
  | serf => .serfsCount

/-- The three groups that may board, in the order in which `member` tests for them. -/
inductive Group
  | hackers
  | serfs
  | mixed
  deriving DecidableEq

/-- How many of a kind there are in the group. -/
def Group.size : Group → Kind → Nat
  | hackers, .hacker => 4
  | hackers, .serf => 0
  | serfs, .hacker => 0
  | serfs, .serf => 4
  | mixed, _ => 2

theorem Group.size_add (g : Group) : g.size .hacker + g.size .serf = 4 := by cases g <;> rfl

theorem Group.size_even (g : Group) (K : Kind) : g.size K % 2 = 0 := by cases g <;> cases K <;> rfl

/-- The tests of `member` on the numbers of hackers and serfs on the pier. -/
def findGroup (hackersCount serfsCount : Nat) : Option Group :=
  if hackersCount = 4 then some .hackers
  else if serfsCount = 4 then some .serfs
  else if 2 ≤ hackersCount ∧ 2 ≤ serfsCount then some .mixed
  else none

theorem findGroup_eq_none :
    findGroup h s = none ↔ h ≠ 4 ∧ s ≠ 4 ∧ ¬(2 ≤ h ∧ 2 ≤ s) := by
  unfold findGroup
  split_ifs <;> simp [*]

theorem findGroup_eq_some (hg : findGroup h s = some g) :
    g.size .hacker ≤ h ∧ g.size .serf ≤ s ∧
      (g = .hackers ∧ h = 4 ∨ g = .serfs ∧ s = 4 ∨ g = .mixed) := by
  unfold findGroup at hg
  split_ifs at hg <;> cases hg <;> simp_all [Group.size]

/-- Program points of `member`, each named after what comes next. A number is the count of
`sem_post` calls that a loop still has to make. -/
inductive Pc
  /-- The generator has not forked the process yet. -/
  | unborn
  | startWait
  | startPrint
  | startPost
  | moloWait
  | pierWait
  | pierPrint
  | pierPost
  | groupWait
  | groupTest
  /-- The loops over `HACKER` and `SERF`; with both done, the counters are reduced. -/
  | groupPost (g : Group) (hackers serfs : Nat)
  | moloPost
  | groupRelease
  | boatWait
  | boardWait
  | boardPrint
  | boardPost (n : Nat)
  | boardRelease
  | boardingWait
  | roleWait
  | rolePrint
  | rolePost (n : Nat)
  | roleRelease
  | landingWait
  /-- The captain's loop over `CAPTAIN`; with it done, and for the others at once, the wait. -/
  | sail (n : Nat)
  | landWait
  | landPrint
  | landMoloPost
  | landReset
  | landRelease
  | finishCountWait
  | finishCount
  | finishPost (n : Nat)
  | finishWait
  | endWait
  | endPrint
  | endPost
  | done
  deriving DecidableEq

/-- What a line of the output says. The last two are no lines but marks: a group has been formed,
and the captain has posted `CAPTAIN` once. -/
inductive Action
  | started
  | waiting
  | boarding
  | captain
  | member
  | landing
  | finished
  | formed
  | posted
  deriving DecidableEq

/-- An entry of the log: the line number (for a mark, that of the last line), the person, the text,
and the numbers of hackers and serfs on the pier where the line tells them. -/
structure Event (p : Nat) where
  number : Nat
  who : Pid p
  what : Action
  pier : Option (Nat × Nat)
  deriving DecidableEq

/-- The local variables of `member` that its steps read. -/
structure Process where
  pc : Pc
  isCaptain : Bool
  deriving DecidableEq

/-- Semaphores, shared memory, processes, and the log (newest entry first). -/
structure State (p : Nat) where
  semaphore : Esemaphore → Nat
  shm : Esharedmemory → Nat
  process : Pid p → Process
  log : List (Event p)

variable {p : Nat}

/-- The state set by `init`, before any process is forked. -/
def init (p : Nat) : State p where
  semaphore x := if x = .exclusive ∨ x = .molo then 1 else 0
  shm _ := 0
  process _ := { pc := .unborn, isCaptain := false }
  log := []

namespace State

/-- Process `i` goes on at `pc`. -/
def goto (s : State p) (i : Pid p) (pc : Pc) : State p :=
  { s with process := Function.update s.process i { s.process i with pc } }

/-- `sem_wait`: enabled when the semaphore is positive. -/
def wait (s : State p) (x : Esemaphore) (i : Pid p) (pc : Pc) : Option (State p) :=
  if 0 < s.semaphore x then
    some { s.goto i pc with semaphore := Function.update s.semaphore x (s.semaphore x - 1) }
  else none

/-- `sem_post`. -/
def post (s : State p) (x : Esemaphore) (i : Pid p) (pc : Pc) : State p :=
  { s.goto i pc with semaphore := Function.update s.semaphore x (s.semaphore x + 1) }

/-- Write a shared variable. -/
def write (s : State p) (v : Esharedmemory) (n : Nat) : State p :=
  { s with shm := Function.update s.shm v n }

/-- `fprintf` with `++(*shm[COUNTER])`. -/
def print (s : State p) (i : Pid p) (what : Action) (pier : Option (Nat × Nat)) : State p :=
  { s.write .counter (s.shm .counter + 1) with
    log := ⟨s.shm .counter + 1, i, what, pier⟩ :: s.log }

/-- Leave a mark in the log. -/
def mark (s : State p) (i : Pid p) (what : Action) : State p :=
  { s with log := ⟨s.shm .counter, i, what, none⟩ :: s.log }

/-- The counts on the pier, as some lines print them. -/
def pier (s : State p) : Option (Nat × Nat) := some (s.shm .hackersCount, s.shm .serfsCount)

/-- `(*shm[WAITING_MEMBERS])++`, and on to the loop if that makes four. -/
def countMember (s : State p) (i : Pid p) (full rest : Pc) : State p :=
  (s.write .waitingMembers (s.shm .waitingMembers + 1)).goto i
    (if s.shm .waitingMembers + 1 = 4 then full else rest)

end State

open State in
/-- The next step of process `i`; `none` while it is blocked or has ended. -/
def member (s : State p) (i : Pid p) : Option (State p) :=
  match (s.process i).pc with
  | .unborn => some (s.goto i .startWait)
  | .startWait => s.wait .exclusive i .startPrint
  | .startPrint => some ((s.print i .started none).goto i .startPost)
  | .startPost => some (s.post .exclusive i .moloWait)
  | .moloWait => s.wait .molo i .pierWait
  | .pierWait => s.wait .exclusive i .pierPrint
  | .pierPrint =>
    let s := s.write i.1.count (s.shm i.1.count + 1)
    some ((s.print i .waiting s.pier).goto i .pierPost)
  | .pierPost => some (s.post .exclusive i .groupWait)
  | .groupWait => s.wait .exclusive i .groupTest
  | .groupTest =>
    match findGroup (s.shm .hackersCount) (s.shm .serfsCount) with
    | some g => some ((s.mark i .formed).goto i (.groupPost g (g.size .hacker) (g.size .serf)))
    | none => some (s.goto i .moloPost)
  | .groupPost g (h + 1) n => some (s.post .hacker i (.groupPost g h n))
  | .groupPost g 0 (n + 1) => some (s.post .serf i (.groupPost g 0 n))
  | .groupPost g 0 0 =>
    let s := s.write .hackersCount (s.shm .hackersCount - g.size .hacker)
    let s := s.write .serfsCount (s.shm .serfsCount - g.size .serf)
    some { s with process := Function.update s.process i ⟨.groupRelease, true⟩ }
  | .moloPost => some (s.post .molo i .groupRelease)
  | .groupRelease => some (s.post .exclusive i .boatWait)
  | .boatWait => s.wait i.1.boat i .boardWait
  | .boardWait => s.wait .exclusive i .boardPrint
  | .boardPrint =>
    some ((s.print i .boarding s.pier).countMember i (.boardPost 4) .boardRelease)
  | .boardPost (n + 1) => some (s.post .boarding i (.boardPost n))
  | .boardPost 0 => some ((s.write .waitingMembers 0).goto i .boardRelease)
  | .boardRelease => some (s.post .exclusive i .boardingWait)
  | .boardingWait => s.wait .boarding i .roleWait
  | .roleWait => s.wait .exclusive i .rolePrint
  | .rolePrint =>
    let role := if (s.process i).isCaptain then .captain else .member
    some ((s.print i role none).countMember i (.rolePost 4) .roleRelease)
  | .rolePost (n + 1) => some (s.post .landing i (.rolePost n))
  | .rolePost 0 => some ((s.write .waitingMembers 0).goto i .roleRelease)
  | .roleRelease => some (s.post .exclusive i .landingWait)
  | .landingWait => s.wait .landing i (.sail (if (s.process i).isCaptain then 4 else 0))
  | .sail (n + 1) => some ((s.mark i .posted).post .captain i (.sail n))
  | .sail 0 => s.wait .captain i .landWait
  | .landWait => s.wait .exclusive i .landPrint
  | .landPrint =>
    some ((s.print i .landing s.pier).countMember i .landMoloPost .landRelease)
  | .landMoloPost => some (s.post .molo i .landReset)
  | .landReset => some ((s.write .waitingMembers 0).goto i .landRelease)
  | .landRelease => some (s.post .exclusive i .finishCountWait)
  | .finishCountWait => s.wait .exclusive i .finishCount
  | .finishCount =>
    let n := s.shm .waitingToFinish + 1
    some ((s.write .waitingToFinish n).goto i (.finishPost (if n = 2 * p then 2 * p else 0)))
  | .finishPost (n + 1) => some (s.post .finish i (.finishPost n))
  | .finishPost 0 => some (s.post .exclusive i .finishWait)
  | .finishWait => s.wait .finish i .endWait
  | .endWait => s.wait .exclusive i .endPrint
  | .endPrint => some ((s.print i .finished none).goto i .endPost)
  | .endPost => some (s.post .exclusive i .done)
  | .done => none

/-- The program with `p` hackers and `p` serfs. -/
def system (p : Nat) : System (State p) (Pid p) where
  init := init p
  step := member

end RiverCrossing
