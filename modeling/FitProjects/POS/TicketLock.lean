import FitProjects.Lib.System
import Mathlib.Algebra.Group.Int.Defs
import Mathlib.Algebra.Group.Nat.Defs

/-! # The ticket lock

The worker threads of `POS/proj1/main.c`. A thread draws a ticket (`getticket`), waits until the
ticket is the actual one (`await`), prints it and hands the lock on (`advance`). Every statement
that another thread can observe is one step: locking, unlocking and waiting are atomic, `await`
tests `actualTicket` and calls `pthread_cond_wait` in two steps, and `advance` increments
`actualTicket` and broadcasts after it has released the mutex.

Tickets are of C type `int`, the limit `passThroughs` is a `long`. The error branches, which only
report a failed mutex or condition call, are left out together with the calls that fail. -/

namespace TicketLock

/-- The largest value of C type `int`. -/
def intMax : Int := 2 ^ 31 - 1

/-- `++x` on a C `int`: two's complement wrap-around. -/
def increment (x : Int) : Int := (x + 1).bmod (2 ^ 32)

/-- Program points of `worker`, each named after the function it lies in and what comes next. -/
inductive Pc
  /-- `getticket`: about to lock `mutexTicket`. -/
  | getticketLock
  /-- `getticket`: about to run `localTicket = ++nextTicket`. -/
  | getticketIncrement
  /-- `getticket`: about to unlock and return. -/
  | getticketUnlock
  /-- `worker`: about to compare the ticket with `passThroughs`. -/
  | workerTest
  /-- `worker`: in `waitRandom` before `await`. -/
  | workerDelay
  /-- `await`: about to lock `mutexTicket`. -/
  | awaitLock
  /-- `await`: about to evaluate `aenter != actualTicket`. -/
  | awaitTest
  /-- `await`: the test held, about to call `pthread_cond_wait`. -/
  | awaitWait
  /-- `await`: asleep on `CSCond`, the mutex released. -/
  | awaitAsleep
  /-- `await`: woken, about to take the mutex back inside `pthread_cond_wait`. -/
  | awaitWoken
  /-- `worker`: `await` has returned, about to print. -/
  | workerPrint
  /-- `advance`: about to unlock. -/
  | advanceUnlock
  /-- `advance`: about to run `++actualTicket`. -/
  | advanceIncrement
  /-- `advance`: about to broadcast on `CSCond`. -/
  | advanceBroadcast
  /-- `worker`: in `waitRandom` after `advance`. -/
  | workerRest
  /-- `worker` has returned. -/
  | done
  deriving DecidableEq

/-- The part of `threadInfo` that the steps read: the program point and the ticket drawn last. -/
structure Thread where
  pc : Pc
  ticket : Int
  deriving DecidableEq

/-- The shared variables, the threads, and two histories (newest first): the values that `getticket`
has returned and the lines printed, each a ticket and the `id` of the thread. -/
structure State (N : Nat) where
  mutexTicket : Option (Fin N)
  nextTicket : Int
  actualTicket : Int
  thread : Fin N → Thread
  returned : List Int
  printed : List (Int × Nat)

/-- A thread runs on, or wakes up spuriously. -/
inductive Act (N : Nat)
  | run (i : Fin N)
  | spuriousWake (i : Fin N)

variable {N : Nat}

/-- The initial values of the globals, and `main` after it has created all threads. -/
def init (N : Nat) : State N where
  mutexTicket := none
  nextTicket := -1
  actualTicket := 0
  thread _ := { pc := .getticketLock, ticket := -1 }
  returned := []
  printed := []

namespace State

/-- Thread `i` goes on at `pc`. -/
def goto (s : State N) (i : Fin N) (pc : Pc) : State N :=
  { s with thread := Function.update s.thread i { s.thread i with pc } }

/-- `pthread_mutex_lock`: enabled when the mutex is free. -/
def lock (s : State N) (i : Fin N) (pc : Pc) : Option (State N) :=
  if s.mutexTicket = none then some { s.goto i pc with mutexTicket := some i } else none

/-- `pthread_mutex_unlock`. -/
def unlock (s : State N) (i : Fin N) (pc : Pc) : State N :=
  { s.goto i pc with mutexTicket := none }

/-- `localTicket = ++nextTicket`. -/
def draw (s : State N) (i : Fin N) : State N :=
  { s with
    nextTicket := increment s.nextTicket
    thread := Function.update s.thread i ⟨.getticketUnlock, increment s.nextTicket⟩ }

/-- `pthread_cond_broadcast`: exactly the threads asleep on `CSCond` are woken. -/
def broadcast (s : State N) : State N :=
  { s with
    thread j := if (s.thread j).pc = .awaitAsleep then { s.thread j with pc := .awaitWoken }
      else s.thread j }

end State

open State in
/-- The next statement of thread `i`; `none` while it is blocked or has ended. -/
def runThread (passThroughs : Int) (s : State N) (i : Fin N) : Option (State N) :=
  let ticket := (s.thread i).ticket
  match (s.thread i).pc with
  | .getticketLock => s.lock i .getticketIncrement
  | .getticketIncrement => some (s.draw i)
  | .getticketUnlock => some { s.unlock i .workerTest with returned := ticket :: s.returned }
  | .workerTest => some (s.goto i (if ticket < passThroughs then .workerDelay else .done))
  | .workerDelay => some (s.goto i .awaitLock)
  | .awaitLock => s.lock i .awaitTest
  | .awaitTest => some (s.goto i (if ticket ≠ s.actualTicket then .awaitWait else .workerPrint))
  | .awaitWait => some (s.unlock i .awaitAsleep)
  | .awaitAsleep => none
  | .awaitWoken => s.lock i .awaitTest
  | .workerPrint =>
    some { s.goto i .advanceUnlock with printed := (ticket, i.val + 1) :: s.printed }
  | .advanceUnlock => some (s.unlock i .advanceIncrement)
  | .advanceIncrement =>
    some { s.goto i .advanceBroadcast with actualTicket := increment s.actualTicket }
  | .advanceBroadcast => some (s.broadcast.goto i .workerRest)
  | .workerRest => some (s.goto i .getticketLock)
  | .done => none

/-- A spurious wake-up is possible while asleep. -/
def spuriousWake (s : State N) (i : Fin N) : Option (State N) :=
  if (s.thread i).pc = .awaitAsleep then some (s.goto i .awaitWoken) else none

/-- The program with `N` threads and the limit `passThroughs`. -/
def system (N : Nat) (passThroughs : Int) : System (State N) (Act N) where
  init := init N
  step
    | s, .run i => runThread passThroughs s i
    | s, .spuriousWake i => spuriousWake s i

end TicketLock
