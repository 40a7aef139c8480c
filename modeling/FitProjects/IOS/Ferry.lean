import FitProjects.Lib.Census
import FitProjects.IOS.Voyage
import Mathlib.Data.Fintype.Prod

/-! # The ferry

An abstract machine for the river crossing. What a process does between two calls of `sem_wait` is
one step here, so that the mutual exclusion by `EXCLUSIVE` disappears: the semaphores are counters of
tokens, and a person is at one of fifteen stages. The machine also remembers the phase of the
crossing and the group that crosses, which the program keeps nowhere. -/

namespace RiverCrossing

/-- What a person has done last, or is about to do. -/
inductive Stage
  | ashore
  | queueing
  | entering
  | arrived
  | onPier
  | aboard
  | boarded
  | called
  | named
  /-- A captain still has this many tokens to give out. -/
  | sailing (n : Nat)
  | disembarking
  | landed
  | counted
  | leaving
  | left
  deriving DecidableEq

/-- `Stage.sailing`, with any number of tokens. -/
def Stage.isSailing : Stage → Bool
  | sailing _ => true
  | _ => false

/-- How far a person has come. -/
def Stage.rank : Stage → Nat
  | ashore => 0
  | queueing => 1
  | entering => 2
  | arrived => 3
  | onPier => 4
  | aboard => 5
  | boarded => 6
  | called => 7
  | named => 8
  | sailing _ => 9
  | disembarking => 10
  | landed => 11
  | counted => 12
  | leaving => 13
  | left => 14

/-- A person of the abstract machine. -/
structure Person where
  stage : Stage
  isCaptain : Bool

/-- What the persons who cross are doing: nobody crosses, they board, they print their roles, or
they sail and land. -/
inductive Phase
  | idle
  | boarding (g : Group)
  | naming (g : Group)
  | sailing (g : Group)

/-- A group is under way. -/
def Phase.busy : Phase → Nat
  | idle => 0
  | _ => 1

/-- Tokens of each semaphore, the numbers of persons counted on the pier, in this phase of the
crossing (`waiting`) and after landing (`toFinish`), the persons, the phase and the log. -/
structure Ferry (p : Nat) where
  molo : Nat
  boat : Kind → Nat
  boarding : Nat
  landing : Nat
  captain : Nat
  finish : Nat
  pier : Kind → Nat
  waiting : Nat
  toFinish : Nat
  person : Pid p → Person
  phase : Phase
  log : List (Event p)

namespace Ferry

/-- Nobody is there yet, and one person may enter the pier. -/
def init (p : Nat) : Ferry p where
  molo := 1
  boat _ := 0
  boarding := 0
  landing := 0
  captain := 0
  finish := 0
  pier _ := 0
  waiting := 0
  toFinish := 0
  person _ := { stage := .ashore, isCaptain := false }
  phase := .idle
  log := []

variable {p : Nat}

/-- Person `i` reaches a stage. -/
def goto (a : Ferry p) (i : Pid p) (x : Stage) : Ferry p :=
  { a with person := Function.update a.person i { a.person i with stage := x } }

/-- Person `i` says something; the numbers of the entry do not matter here. -/
def say (a : Ferry p) (i : Pid p) (what : Action) (n : Nat) (q : Option (Nat × Nat)) : Ferry p :=
  { a with log := ⟨n, i, what, q⟩ :: a.log }

/-- The group that crosses goes on to its next phase. -/
def advance (a : Ferry p) : Phase :=
  match a.phase with
  | .idle => .idle
  | .boarding g => .naming g
  | .naming g => .sailing g
  | .sailing _ => .idle

/-- The steps. Where the fourth person does more than the others there are two. -/
inductive Step : Ferry p → Pid p → Ferry p → Prop
  | start (h : (a.person i).stage = .ashore) :
    Step a i ((a.say i .started n q).goto i .queueing)
  | enter (h : (a.person i).stage = .queueing) (ht : 0 < a.molo) :
    Step a i { a.goto i .entering with molo := a.molo - 1 }
  | arrive (h : (a.person i).stage = .entering) :
    Step a i { (a.say i .waiting n q).goto i .arrived with
      pier := Function.update a.pier i.1 (a.pier i.1 + 1) }
  | form (h : (a.person i).stage = .arrived)
      (hg : findGroup (a.pier .hacker) (a.pier .serf) = some g) :
    Step a i { a.say i .formed n q with
      person := Function.update a.person i ⟨.onPier, true⟩
      pier := fun K => a.pier K - g.size K
      boat := fun K => a.boat K + g.size K
      phase := .boarding g }
  | pass (h : (a.person i).stage = .arrived)
      (hg : findGroup (a.pier .hacker) (a.pier .serf) = none) :
    Step a i { a.goto i .onPier with molo := a.molo + 1 }
  | embark (h : (a.person i).stage = .onPier) (ht : 0 < a.boat i.1) :
    Step a i { a.goto i .aboard with boat := Function.update a.boat i.1 (a.boat i.1 - 1) }
  | board (h : (a.person i).stage = .aboard) (hw : a.waiting + 1 ≠ 4) :
    Step a i { (a.say i .boarding n q).goto i .boarded with waiting := a.waiting + 1 }
  | boardLast (h : (a.person i).stage = .aboard) (hw : a.waiting + 1 = 4) :
    Step a i { (a.say i .boarding n q).goto i .boarded with
      waiting := 0, boarding := a.boarding + 4, phase := a.advance }
  | call (h : (a.person i).stage = .boarded) (ht : 0 < a.boarding) :
    Step a i { a.goto i .called with boarding := a.boarding - 1 }
  | name (h : (a.person i).stage = .called) (hw : a.waiting + 1 ≠ 4)
      (hx : x = if (a.person i).isCaptain then .captain else .member) :
    Step a i { (a.say i x n q).goto i .named with waiting := a.waiting + 1 }
  | nameLast (h : (a.person i).stage = .called) (hw : a.waiting + 1 = 4)
      (hx : x = if (a.person i).isCaptain then .captain else .member) :
    Step a i { (a.say i x n q).goto i .named with
      waiting := 0, landing := a.landing + 4, phase := a.advance }
  | sail (h : (a.person i).stage = .named) (ht : 0 < a.landing) :
    Step a i { a.goto i (.sailing (if (a.person i).isCaptain then 4 else 0)) with
      landing := a.landing - 1 }
  | signal (h : (a.person i).stage = .sailing (m + 1)) :
    Step a i { (a.say i .posted n q).goto i (.sailing m) with captain := a.captain + 1 }
  | disembark (h : (a.person i).stage = .sailing 0) (ht : 0 < a.captain) :
    Step a i { a.goto i .disembarking with captain := a.captain - 1 }
  | land (h : (a.person i).stage = .disembarking) (hw : a.waiting + 1 ≠ 4) :
    Step a i { (a.say i .landing n q).goto i .landed with waiting := a.waiting + 1 }
  | landLast (h : (a.person i).stage = .disembarking) (hw : a.waiting + 1 = 4) :
    Step a i { (a.say i .landing n q).goto i .landed with
      waiting := 0, molo := a.molo + 1, phase := a.advance }
  | count (h : (a.person i).stage = .landed) (hw : a.toFinish + 1 ≠ 2 * p) :
    Step a i { a.goto i .counted with toFinish := a.toFinish + 1 }
  | countLast (h : (a.person i).stage = .landed) (hw : a.toFinish + 1 = 2 * p) :
    Step a i { a.goto i .counted with
      toFinish := a.toFinish + 1, finish := a.finish + 2 * p }
  | leave (h : (a.person i).stage = .counted) (ht : 0 < a.finish) :
    Step a i { a.goto i .leaving with finish := a.finish - 1 }
  | finish (h : (a.person i).stage = .leaving) :
    Step a i ((a.say i .finished n q).goto i .left)

/-- The states of all runs. -/
def Reachable (a : Ferry p) : Prop :=
  Relation.ReflTransGen (fun a a' => ∃ i, Step a i a') (init p) a

/-! ## Head counts -/

/-- Add up a weight over all persons. -/
def total (w : Kind → Person → Nat) (a : Ferry p) : Nat := census (fun i => w i.1) a.person

/-- At one of the stages. -/
def here (P : Stage → Prop) [DecidablePred P] (_ : Kind) (x : Person) : Nat :=
  if P x.stage then 1 else 0

/-- Of one kind, and at one of the stages. -/
def hereOf (K : Kind) (P : Stage → Prop) [DecidablePred P] (k : Kind) (x : Person) : Nat :=
  if k = K ∧ P x.stage then 1 else 0

/-- A captain who crosses and has not printed `captain`. -/
def fresh (_ : Kind) (x : Person) : Nat :=
  if x.isCaptain ∧ (x.stage = .onPier ∨ x.stage = .aboard ∨ x.stage = .boarded ∨ x.stage = .called)
  then 1 else 0

/-- The tokens that a captain still has. -/
def unposted (_ : Kind) (x : Person) : Nat :=
  match x.stage with
  | .named => if x.isCaptain then 4 else 0
  | .sailing n => n
  | _ => 0

/-- How many persons are at the stages, of each kind where it matters. -/
structure Muster where
  entering : Nat
  arrived : Kind → Nat
  onPier : Kind → Nat
  /-- At `arrived` or later. -/
  come : Kind → Nat
  aboard : Kind → Nat
  boarded : Kind → Nat
  called : Nat
  named : Nat
  sailing : Nat
  disembarking : Nat
  fresh : Nat
  unposted : Nat
  /-- At `counted` or later. -/
  counted : Nat
  /-- At `leaving` or later. -/
  leaving : Nat

@[inherit_doc Muster] def muster (a : Ferry p) : Muster where
  entering := a.total (here (· = .entering))
  arrived K := a.total (hereOf K (· = .arrived))
  onPier K := a.total (hereOf K (· = .onPier))
  come K := a.total (hereOf K fun x => ¬(x = .ashore ∨ x = .queueing ∨ x = .entering))
  aboard K := a.total (hereOf K (· = .aboard))
  boarded K := a.total (hereOf K (· = .boarded))
  called := a.total (here (· = .called))
  named := a.total (here (· = .named))
  sailing := a.total (here (·.isSailing))
  disembarking := a.total (here (· = .disembarking))
  fresh := a.total fresh
  unposted := a.total unposted
  counted := a.total (here fun x => x = .counted ∨ x = .leaving ∨ x = .left)
  leaving := a.total (here fun x => x = .leaving ∨ x = .left)

/-- The muster changes by one person of kind `k`, who goes from `x` to `y`. -/
structure Moved (k : Kind) (x y : Person) (m m' : Muster) : Prop where
  entering : m'.entering + here (· = .entering) k x = m.entering + here (· = .entering) k y
  arrived K : m'.arrived K + hereOf K (· = .arrived) k x = m.arrived K + hereOf K (· = .arrived) k y
  onPier K : m'.onPier K + hereOf K (· = .onPier) k x = m.onPier K + hereOf K (· = .onPier) k y
  come K : m'.come K + hereOf K (fun x => ¬(x = .ashore ∨ x = .queueing ∨ x = .entering)) k x =
    m.come K + hereOf K (fun x => ¬(x = .ashore ∨ x = .queueing ∨ x = .entering)) k y
  aboard K : m'.aboard K + hereOf K (· = .aboard) k x = m.aboard K + hereOf K (· = .aboard) k y
  boarded K : m'.boarded K + hereOf K (· = .boarded) k x = m.boarded K + hereOf K (· = .boarded) k y
  called : m'.called + here (· = .called) k x = m.called + here (· = .called) k y
  named : m'.named + here (· = .named) k x = m.named + here (· = .named) k y
  sailing : m'.sailing + here (·.isSailing) k x = m.sailing + here (·.isSailing) k y
  disembarking : m'.disembarking + here (· = .disembarking) k x =
    m.disembarking + here (· = .disembarking) k y
  fresh : m'.fresh + Ferry.fresh k x = m.fresh + Ferry.fresh k y
  unposted : m'.unposted + Ferry.unposted k x = m.unposted + Ferry.unposted k y
  counted : m'.counted + here (fun x => x = .counted ∨ x = .leaving ∨ x = .left) k x =
    m.counted + here (fun x => x = .counted ∨ x = .leaving ∨ x = .left) k y
  leaving : m'.leaving + here (fun x => x = .leaving ∨ x = .left) k x =
    m.leaving + here (fun x => x = .leaving ∨ x = .left) k y

section
variable {a a' : Ferry p} {i j : Pid p} {w : Kind → Person → Nat}

theorem Step.person_eq (hs : Step a i a') :
    a'.person = Function.update a.person i (a'.person i) := by
  cases hs <;> simp [goto, say]

/-- A step changes a total by the weights of the person who moves. -/
theorem Step.total (hs : Step a i a') (w : Kind → Person → Nat) :
    a'.total w + w i.1 (a.person i) = a.total w + w i.1 (a'.person i) := by
  have h := census_update (fun j : Pid p => w j.1) a.person i (a'.person i)
  rwa [← hs.person_eq] at h

theorem Step.moved (hs : Step a i a') :
    Moved i.1 (a.person i) (a'.person i) a.muster a'.muster where
  entering := hs.total _
  arrived _ := hs.total _
  onPier _ := hs.total _
  come _ := hs.total _
  aboard _ := hs.total _
  boarded _ := hs.total _
  called := hs.total _
  named := hs.total _
  sailing := hs.total _
  disembarking := hs.total _
  fresh := hs.total _
  unposted := hs.total _
  counted := hs.total _
  leaving := hs.total _

theorem Step.person_ne (hs : Step a i a') (hj : j ≠ i) : a'.person j = a.person j := by
  rw [hs.person_eq, Function.update_of_ne hj]

theorem le_total (a : Ferry p) (i : Pid p) (w : Kind → Person → Nat) :
    w i.1 (a.person i) ≤ a.total w :=
  le_census (fun i : Pid p => w i.1) a.person i

end

end Ferry

end RiverCrossing
