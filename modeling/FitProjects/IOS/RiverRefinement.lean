import FitProjects.IOS.FerryProgress

/-! # The program refines the ferry

Inside a critical section of `member` the semaphores that are still to be posted are counted as
posted (`pending`), and the counters that are still to be reduced as reduced (`owed`). So seen, a
step of a process either changes nothing or is a step of the ferry, and what holds of the ferry's log
and progress holds of the program's. -/

namespace RiverCrossing

/-- The stage of the ferry that a program point belongs to. -/
def Pc.stage : Pc → Stage
  | unborn | startWait | startPrint => .ashore
  | startPost | moloWait => .queueing
  | pierWait | pierPrint => .entering
  | pierPost | groupWait | groupTest => .arrived
  | groupPost .. | moloPost | groupRelease | boatWait => .onPier
  | boardWait | boardPrint => .aboard
  | boardPost _ | boardRelease | boardingWait => .boarded
  | roleWait | rolePrint => .called
  | rolePost _ | roleRelease | landingWait => .named
  | sail n => .sailing n
  | landWait | landPrint => .disembarking
  | landMoloPost | landReset | landRelease | finishCountWait | finishCount => .landed
  | finishPost _ | finishWait => .counted
  | endWait | endPrint => .leaving
  | endPost | done => .left

/-- A captain is one from the test on, before `isCaptain` is set. -/
def Process.person (q : Process) : Person where
  stage := q.pc.stage
  isCaptain := match q.pc with
    | .groupPost .. => true
    | _ => q.isCaptain

/-- How often the critical section at `pc` still posts a semaphore. -/
def pending : Esemaphore → Pc → Nat
  | .exclusive, .startPrint | .exclusive, .startPost | .exclusive, .pierPrint
  | .exclusive, .pierPost | .exclusive, .groupTest | .exclusive, .groupPost ..
  | .exclusive, .moloPost | .exclusive, .groupRelease | .exclusive, .boardPrint
  | .exclusive, .boardPost _ | .exclusive, .boardRelease | .exclusive, .rolePrint
  | .exclusive, .rolePost _ | .exclusive, .roleRelease | .exclusive, .landPrint
  | .exclusive, .landMoloPost | .exclusive, .landReset | .exclusive, .landRelease
  | .exclusive, .finishCount | .exclusive, .finishPost _ | .exclusive, .endPrint
  | .exclusive, .endPost => 1
  | .molo, .moloPost | .molo, .landMoloPost => 1
  | .hacker, .groupPost _ n _ | .serf, .groupPost _ _ n => n
  | .boarding, .boardPost n | .landing, .rolePost n | .finish, .finishPost n => n
  | _, _ => 0

/-- How much the critical section at `pc` will still take from a shared variable. -/
def owed : Esharedmemory → Pc → Nat
  | .hackersCount, .groupPost g _ _ => g.size .hacker
  | .serfsCount, .groupPost g _ _ => g.size .serf
  | .waitingMembers, .boardPost _ | .waitingMembers, .rolePost _
  | .waitingMembers, .landMoloPost | .waitingMembers, .landReset => 4
  | _, _ => 0

/-- The tokens of a semaphore in the ferry, and the one of `EXCLUSIVE`. -/
def Ferry.token (a : Ferry p) : Esemaphore → Nat
  | .exclusive => 1
  | .hacker => a.boat .hacker
  | .serf => a.boat .serf
  | .molo => a.molo
  | .boarding => a.boarding
  | .landing => a.landing
  | .finish => a.finish
  | .captain => a.captain

/-- The value of a shared variable in the ferry, which does not number the lines. -/
def Ferry.value (a : Ferry p) : Esharedmemory → Nat
  | .counter => 0
  | .hackersCount => a.pier .hacker
  | .serfsCount => a.pier .serf
  | .waitingMembers => a.waiting
  | .waitingToFinish => a.toFinish

/-- The program state `s`, seen as the ferry `a`. -/
structure Refines (s : State p) (a : Ferry p) : Prop where
  person i : a.person i = (s.process i).person
  token x : a.token x = s.semaphore x + census (fun _ q => pending x q.pc) s.process
  value v (hv : v ≠ .counter) : s.shm v = a.value v + census (fun _ q => owed v q.pc) s.process
  full i : owed .waitingMembers (s.process i).pc = 0 ∨ s.shm .waitingMembers = 4
  log : a.log = s.log

section
variable {p : Nat} {s s' : State p} {a a' : Ferry p} {i j : Pid p}

theorem pending_exclusive (x : Esemaphore) (pc : Pc) (h : pending .exclusive pc = 0) :
    pending x pc = 0 := by
  cases pc <;> simp [pending] at h <;> cases x <;> simp [pending]

theorem owed_exclusive (v : Esharedmemory) (pc : Pc) (h : pending .exclusive pc = 0) :
    owed v pc = 0 := by
  cases pc <;> simp [pending] at h <;> cases v <;> simp [owed]

/-- Mutual exclusion. -/
theorem Refines.exclusive (h : Refines s a) (hi : pending .exclusive (s.process i).pc = 1)
    (hj : j ≠ i) : pending .exclusive (s.process j).pc = 0 := by
  have h1 := h.token .exclusive
  have h2 := add_le_census (fun (_ : Pid p) q => pending .exclusive q.pc) s.process hj
  simp only [Ferry.token] at h1
  omega

/-- In a critical section that owes nothing, the shared variables are those of the ferry. -/
theorem Refines.value_eq (h : Refines s a) (hi : pending .exclusive (s.process i).pc = 1)
    (ho : owed v (s.process i).pc = 0) (hv : v ≠ .counter) : s.shm v = a.value v := by
  have hz : census (fun _ q => owed v q.pc) s.process = 0 := census_zero fun j => by
    by_cases hj : j = i
    · rw [hj, ho]
    · exact owed_exclusive _ _ (h.exclusive hi hj)
  rw [h.value v hv, hz, Nat.add_zero]

theorem Refines.waitingMembers_eq (h : Refines s a)
    (hi : pending .exclusive (s.process i).pc = 1)
    (ho : owed .waitingMembers (s.process i).pc = 0) : s.shm .waitingMembers = a.waiting :=
  h.value_eq hi ho (by simp)

/-- One process goes on, and nobody else notices. -/
theorem Refines.update (h : Refines s a) {q : Process}
    (hprocess : s'.process = Function.update s.process i q)
    (hperson : a'.person = Function.update a.person i q.person)
    (htoken : ∀ x, a'.token x + (s.semaphore x + pending x (s.process i).pc) =
      a.token x + (s'.semaphore x + pending x q.pc))
    (hvalue : ∀ v, v ≠ .counter → s'.shm v + (a.value v + owed v (s.process i).pc) =
      s.shm v + (a'.value v + owed v q.pc))
    (hwrite : pending .exclusive (s.process i).pc = 1 ∨
      s'.shm .waitingMembers = s.shm .waitingMembers)
    (hfull : owed .waitingMembers q.pc = 0 ∨ s'.shm .waitingMembers = 4)
    (hlog : a'.log = s'.log) : Refines s' a' where
  person j := by
    by_cases hj : j = i
    · rw [hj, hprocess, hperson, Function.update_self, Function.update_self]
    · rw [hprocess, hperson, Function.update_of_ne hj, Function.update_of_ne hj, h.person]
  token x := by
    have hc := census_update (fun (_ : Pid p) q => pending x q.pc) s.process i q
    have := h.token x
    have := htoken x
    rw [hprocess]
    omega
  value v hv := by
    have hc := census_update (fun (_ : Pid p) q => owed v q.pc) s.process i q
    have := h.value v hv
    have := hvalue v hv
    rw [hprocess]
    omega
  full j := by
    by_cases hj : j = i
    · rwa [hj, hprocess, Function.update_self]
    · rw [hprocess, Function.update_of_ne hj]
      rcases hwrite with hw | hw
      · exact .inl (owed_exclusive _ _ (h.exclusive hw hj))
      · rw [hw]
        exact h.full j
  log := hlog

/-- A step that the ferry does not take. -/
theorem Refines.silent (h : Refines s a) {q : Process}
    (hprocess : s'.process = Function.update s.process i q)
    (hperson : q.person = (s.process i).person)
    (htoken : ∀ x, s.semaphore x + pending x (s.process i).pc = s'.semaphore x + pending x q.pc)
    (hvalue : ∀ v, v ≠ .counter →
      s'.shm v + owed v (s.process i).pc = s.shm v + owed v q.pc)
    (hwrite : pending .exclusive (s.process i).pc = 1 ∨
      s'.shm .waitingMembers = s.shm .waitingMembers)
    (hfull : owed .waitingMembers q.pc = 0 ∨ s'.shm .waitingMembers = 4)
    (hlog : s'.log = s.log) : Refines s' a := by
  refine h.update hprocess ?_ (fun x => ?_) (fun v hv => ?_) hwrite hfull (h.log.trans hlog.symm)
  · rw [hperson, ← h.person, Function.update_eq_self]
  · have := htoken x
    omega
  · have := hvalue v hv
    omega

section
variable (h : Refines s a) (hs : member s i = some s')
attribute [local simp] State.goto State.post State.write State.print State.mark State.countMember
  Process.person Pc.stage pending owed Ferry.goto Ferry.say Ferry.token Ferry.value
include h hs

/-! ## Silent steps -/

theorem Refines.unborn (hpc : (s.process i).pc = .unborn) : Refines s' a := by
  simp only [member, hpc] at hs
  cases hs
  refine h.silent rfl ?_ ?_ ?_ ?_ ?_ ?_ <;> simp [hpc]

/-- A critical section is entered. -/
theorem Refines.enter (hpc : (s.process i).pc = .startWait ∨ (s.process i).pc = .pierWait ∨
    (s.process i).pc = .groupWait ∨ (s.process i).pc = .boardWait ∨ (s.process i).pc = .roleWait ∨
    (s.process i).pc = .landWait ∨ (s.process i).pc = .finishCountWait ∨
    (s.process i).pc = .endWait) : Refines s' a := by
  rcases hpc with hpc | hpc | hpc | hpc | hpc | hpc | hpc | hpc <;>
  · simp only [member, hpc, State.wait, Option.ite_none_right_eq_some, Option.some.injEq] at hs
    obtain ⟨ht, rfl⟩ := hs
    refine h.silent rfl ?_ (fun x => ?_) (fun v _ => ?_) ?_ ?_ ?_
    case refine_2 => cases x <;> simp [hpc]; omega
    all_goals simp [hpc]

/-- A critical section is left. -/
theorem Refines.leave (hpc : (s.process i).pc = .startPost ∨ (s.process i).pc = .pierPost ∨
    (s.process i).pc = .groupRelease ∨ (s.process i).pc = .boardRelease ∨
    (s.process i).pc = .roleRelease ∨ (s.process i).pc = .landRelease ∨
    (s.process i).pc = .finishPost 0 ∨ (s.process i).pc = .endPost) : Refines s' a := by
  rcases hpc with hpc | hpc | hpc | hpc | hpc | hpc | hpc | hpc <;>
  · simp only [member, hpc] at hs
    cases hs
    refine h.silent rfl ?_ (fun x => ?_) (fun v _ => ?_) ?_ ?_ ?_
    case refine_2 => cases x <;> simp [hpc]
    all_goals simp [hpc]

/-- A semaphore is posted that the ferry posted before. -/
theorem Refines.loop (hpc : (∃ g m n, (s.process i).pc = .groupPost g (m + 1) n) ∨
    (∃ g n, (s.process i).pc = .groupPost g 0 (n + 1)) ∨
    (∃ n, (s.process i).pc = .boardPost (n + 1)) ∨ (∃ n, (s.process i).pc = .rolePost (n + 1)) ∨
    (∃ n, (s.process i).pc = .finishPost (n + 1)) ∨ (s.process i).pc = .moloPost ∨
    (s.process i).pc = .landMoloPost) : Refines s' a := by
  have hfull := h.full i
  rcases hpc with ⟨g, m, n, hpc⟩ | ⟨g, n, hpc⟩ | ⟨n, hpc⟩ | ⟨n, hpc⟩ | ⟨n, hpc⟩ | hpc | hpc <;>
  · simp only [member, hpc] at hs
    cases hs
    refine h.silent rfl ?_ (fun x => ?_) (fun v _ => ?_) ?_ ?_ ?_
    case refine_2 => cases x <;> simp [hpc] <;> omega
    case refine_3 => cases v <;> simp [hpc]
    all_goals simp_all

/-- A shared variable is reduced that the ferry reduced before. -/
theorem Refines.settle (hpc : (∃ g, (s.process i).pc = .groupPost g 0 0) ∨
    (s.process i).pc = .boardPost 0 ∨ (s.process i).pc = .rolePost 0 ∨
    (s.process i).pc = .landReset) : Refines s' a := by
  have hfull := h.full i
  have hle v (hv : v ≠ .counter) : owed v (s.process i).pc ≤ s.shm v := by
    have := h.value v hv
    have := le_census (fun (_ : Pid p) q => owed v q.pc) s.process i
    omega
  have hhackers := hle .hackersCount
  have hserfs := hle .serfsCount
  rcases hpc with ⟨g, hpc⟩ | hpc | hpc | hpc <;>
  · simp only [member, hpc] at hs
    cases hs
    refine h.silent rfl ?_ (fun x => ?_) (fun v _ => ?_) ?_ ?_ ?_
    case refine_2 => cases x <;> simp [hpc]
    case refine_3 => cases v <;> simp_all
    all_goals simp [hpc]

/-! ## Steps of the ferry -/

theorem Refines.moloWait (hpc : (s.process i).pc = .moloWait) :
    ∃ a', Ferry.Step a i a' ∧ Refines s' a' := by
  have hperson := h.person i
  have htoken := h.token .molo
  have hlog := h.log
  simp only [member, hpc, State.wait, Option.ite_none_right_eq_some, Option.some.injEq] at hs
  obtain ⟨ht, rfl⟩ := hs
  simp only [Ferry.token] at htoken
  refine ⟨_, .enter (by simp [hperson, hpc]) (by omega), h.update rfl ?_ (fun x => ?_)
    (fun v hv => ?_) ?_ ?_ ?_⟩
  case refine_2 => cases x <;> simp [hpc]; omega
  case refine_3 => cases v <;> simp_all
  all_goals simp_all

theorem Refines.boatWait (hpc : (s.process i).pc = .boatWait) :
    ∃ a', Ferry.Step a i a' ∧ Refines s' a' := by
  have hperson := h.person i
  have htoken := h.token i.1.boat
  have hlog := h.log
  simp only [member, hpc, State.wait, Option.ite_none_right_eq_some, Option.some.injEq] at hs
  obtain ⟨ht, rfl⟩ := hs
  have hboat : a.token i.1.boat = a.boat i.1 := by cases i.1 <;> rfl
  refine ⟨_, .embark (by simp [hperson, hpc]) (by omega), h.update rfl ?_ (fun x => ?_)
    (fun v hv => ?_) ?_ ?_ ?_⟩
  case refine_2 =>
    rw [hboat] at htoken
    cases hk : i.1 <;> simp only [hk, Kind.boat] at ht htoken ⊢ <;> cases x <;> simp [hpc] <;> omega
  case refine_3 => cases v <;> simp_all
  all_goals simp_all

theorem Refines.boardingWait (hpc : (s.process i).pc = .boardingWait) :
    ∃ a', Ferry.Step a i a' ∧ Refines s' a' := by
  have hperson := h.person i
  have htoken := h.token .boarding
  have hlog := h.log
  simp only [member, hpc, State.wait, Option.ite_none_right_eq_some, Option.some.injEq] at hs
  obtain ⟨ht, rfl⟩ := hs
  simp only [Ferry.token] at htoken
  refine ⟨_, .call (by simp [hperson, hpc]) (by omega), h.update rfl ?_ (fun x => ?_)
    (fun v hv => ?_) ?_ ?_ ?_⟩
  case refine_2 => cases x <;> simp [hpc]; omega
  case refine_3 => cases v <;> simp_all
  all_goals simp_all

theorem Refines.landingWait (hpc : (s.process i).pc = .landingWait) :
    ∃ a', Ferry.Step a i a' ∧ Refines s' a' := by
  have hperson := h.person i
  have htoken := h.token .landing
  have hlog := h.log
  simp only [member, hpc, State.wait, Option.ite_none_right_eq_some, Option.some.injEq] at hs
  obtain ⟨ht, rfl⟩ := hs
  simp only [Ferry.token] at htoken
  refine ⟨_, .sail (by simp [hperson, hpc]) (by omega), h.update rfl ?_ (fun x => ?_)
    (fun v hv => ?_) ?_ ?_ ?_⟩
  case refine_2 => cases x <;> simp [hpc]; omega
  case refine_3 => cases v <;> simp_all
  all_goals simp_all

theorem Refines.sailWait (hpc : (s.process i).pc = .sail 0) :
    ∃ a', Ferry.Step a i a' ∧ Refines s' a' := by
  have hperson := h.person i
  have htoken := h.token .captain
  have hlog := h.log
  simp only [member, hpc, State.wait, Option.ite_none_right_eq_some, Option.some.injEq] at hs
  obtain ⟨ht, rfl⟩ := hs
  simp only [Ferry.token] at htoken
  refine ⟨_, .disembark (by simp [hperson, hpc]) (by omega), h.update rfl ?_ (fun x => ?_)
    (fun v hv => ?_) ?_ ?_ ?_⟩
  case refine_2 => cases x <;> simp [hpc]; omega
  case refine_3 => cases v <;> simp_all
  all_goals simp_all

theorem Refines.finishWait (hpc : (s.process i).pc = .finishWait) :
    ∃ a', Ferry.Step a i a' ∧ Refines s' a' := by
  have hperson := h.person i
  have htoken := h.token .finish
  have hlog := h.log
  simp only [member, hpc, State.wait, Option.ite_none_right_eq_some, Option.some.injEq] at hs
  obtain ⟨ht, rfl⟩ := hs
  simp only [Ferry.token] at htoken
  refine ⟨_, .leave (by simp [hperson, hpc]) (by omega), h.update rfl ?_ (fun x => ?_)
    (fun v hv => ?_) ?_ ?_ ?_⟩
  case refine_2 => cases x <;> simp [hpc]; omega
  case refine_3 => cases v <;> simp_all
  all_goals simp_all

theorem Refines.post (hpc : (s.process i).pc = .sail (n + 1)) :
    ∃ a', Ferry.Step a i a' ∧ Refines s' a' := by
  have hperson := h.person i
  have hlog := h.log
  simp only [member, hpc] at hs
  cases hs
  refine ⟨_, .signal (m := n) (n := s.shm .counter) (q := none) (by simp [hperson, hpc]),
    h.update rfl ?_ (fun x => ?_) (fun v hv => ?_) ?_ ?_ ?_⟩
  case refine_2 => cases x <;> simp [hpc]; omega
  case refine_3 => cases v <;> simp_all
  all_goals simp_all

theorem Refines.startPrint (hpc : (s.process i).pc = .startPrint) :
    ∃ a', Ferry.Step a i a' ∧ Refines s' a' := by
  have hperson := h.person i
  have hlog := h.log
  simp only [member, hpc] at hs
  cases hs
  refine ⟨_, .start (n := s.shm .counter + 1) (q := none) (by simp [hperson, hpc]),
    h.update rfl ?_ (fun x => ?_) (fun v hv => ?_) ?_ ?_ ?_⟩
  case refine_2 => cases x <;> simp [hpc]
  case refine_3 => cases v <;> simp_all
  all_goals simp_all

theorem Refines.endPrint (hpc : (s.process i).pc = .endPrint) :
    ∃ a', Ferry.Step a i a' ∧ Refines s' a' := by
  have hperson := h.person i
  have hlog := h.log
  simp only [member, hpc] at hs
  cases hs
  refine ⟨_, .finish (n := s.shm .counter + 1) (q := none) (by simp [hperson, hpc]),
    h.update rfl ?_ (fun x => ?_) (fun v hv => ?_) ?_ ?_ ?_⟩
  case refine_2 => cases x <;> simp [hpc]
  case refine_3 => cases v <;> simp_all
  all_goals simp_all

theorem Refines.pierPrint (hpc : (s.process i).pc = .pierPrint) :
    ∃ a', Ferry.Step a i a' ∧ Refines s' a' := by
  have hperson := h.person i
  have hlog := h.log
  simp only [member, hpc] at hs
  cases hs
  refine ⟨_, .arrive (n := s.shm .counter + 1)
    (q := (s.write i.1.count (s.shm i.1.count + 1)).pier) (by simp [hperson, hpc]),
    h.update rfl ?_ (fun x => ?_) (fun v hv => ?_) ?_ ?_ ?_⟩
  case refine_2 => cases x <;> simp [hpc]
  case refine_3 => cases hk : i.1 <;> cases v <;> simp_all [Kind.count] <;> omega
  case refine_6 => cases hk : i.1 <;> simp_all [Kind.count, State.pier]
  all_goals simp_all

/-- The numbers that the test for a group reads are those of the ferry. -/
theorem Refines.groupTest (hpc : (s.process i).pc = .groupTest) :
    ∃ a', Ferry.Step a i a' ∧ Refines s' a' := by
  have hperson := h.person i
  have hlog := h.log
  have hhackers := h.value_eq (i := i) (v := .hackersCount) (by simp [hpc]) (by simp [hpc]) (by simp)
  have hserfs := h.value_eq (i := i) (v := .serfsCount) (by simp [hpc]) (by simp [hpc]) (by simp)
  simp only [Ferry.value] at hhackers hserfs
  simp only [member, hpc, hhackers, hserfs] at hs
  cases hg : findGroup (a.pier .hacker) (a.pier .serf) with
  | none =>
    simp only [hg] at hs
    cases hs
    refine ⟨_, .pass (by simp [hperson, hpc]) hg, h.update rfl ?_ (fun x => ?_) (fun v hv => ?_)
      ?_ ?_ ?_⟩
    case refine_2 => cases x <;> simp [hpc]; omega
    case refine_3 => cases v <;> simp_all
    all_goals simp_all
  | some g =>
    simp only [hg] at hs
    cases hs
    obtain ⟨_, _, _⟩ := findGroup_eq_some hg
    refine ⟨_, .form (n := s.shm .counter) (q := none) (by simp [hperson, hpc]) hg,
      h.update rfl ?_ (fun x => ?_) (fun v hv => ?_) ?_ ?_ ?_⟩
    case refine_2 => cases x <;> simp [hpc] <;> omega
    case refine_3 => cases v <;> simp_all
    all_goals simp_all

/-- The fourth to print `boarding` is the fourth of the ferry. -/
theorem Refines.boardPrint (hpc : (s.process i).pc = .boardPrint) :
    ∃ a', Ferry.Step a i a' ∧ Refines s' a' := by
  have hperson := h.person i
  have hlog := h.log
  have hwaiting := h.waitingMembers_eq (i := i) (by simp [hpc]) (by simp [hpc])
  simp only [member, hpc] at hs
  cases hs
  by_cases hw : a.waiting + 1 = 4
  · refine ⟨_, .boardLast (n := s.shm .counter + 1) (q := s.pier) (by simp [hperson, hpc]) hw,
      h.update rfl ?_ (fun x => ?_) (fun v hv => ?_) ?_ ?_ ?_⟩
    case refine_2 => cases x <;> simp_all; omega
    case refine_3 => cases v <;> simp_all
    all_goals simp_all
  · refine ⟨_, .board (n := s.shm .counter + 1) (q := s.pier) (by simp [hperson, hpc]) hw,
      h.update rfl ?_ (fun x => ?_) (fun v hv => ?_) ?_ ?_ ?_⟩
    case refine_2 => cases x <;> simp_all
    case refine_3 => cases v <;> simp_all; omega
    all_goals simp_all

theorem Refines.rolePrint (hpc : (s.process i).pc = .rolePrint) :
    ∃ a', Ferry.Step a i a' ∧ Refines s' a' := by
  have hperson := h.person i
  have hlog := h.log
  have hwaiting := h.waitingMembers_eq (i := i) (by simp [hpc]) (by simp [hpc])
  simp only [member, hpc] at hs
  cases hs
  by_cases hw : a.waiting + 1 = 4
  · refine ⟨_, .nameLast (n := s.shm .counter + 1) (q := none) (by simp [hperson, hpc]) hw rfl,
      h.update rfl ?_ (fun x => ?_) (fun v hv => ?_) ?_ ?_ ?_⟩
    case refine_2 => cases x <;> simp_all; omega
    case refine_3 => cases v <;> simp_all
    all_goals simp_all
  · refine ⟨_, .name (n := s.shm .counter + 1) (q := none) (by simp [hperson, hpc]) hw rfl,
      h.update rfl ?_ (fun x => ?_) (fun v hv => ?_) ?_ ?_ ?_⟩
    case refine_2 => cases x <;> simp_all
    case refine_3 => cases v <;> simp_all; omega
    all_goals simp_all

theorem Refines.landPrint (hpc : (s.process i).pc = .landPrint) :
    ∃ a', Ferry.Step a i a' ∧ Refines s' a' := by
  have hperson := h.person i
  have hlog := h.log
  have hwaiting := h.waitingMembers_eq (i := i) (by simp [hpc]) (by simp [hpc])
  simp only [member, hpc] at hs
  cases hs
  by_cases hw : a.waiting + 1 = 4
  · refine ⟨_, .landLast (n := s.shm .counter + 1) (q := s.pier) (by simp [hperson, hpc]) hw,
      h.update rfl ?_ (fun x => ?_) (fun v hv => ?_) ?_ ?_ ?_⟩
    case refine_2 => cases x <;> simp_all; omega
    case refine_3 => cases v <;> simp_all
    all_goals simp_all
  · refine ⟨_, .land (n := s.shm .counter + 1) (q := s.pier) (by simp [hperson, hpc]) hw,
      h.update rfl ?_ (fun x => ?_) (fun v hv => ?_) ?_ ?_ ?_⟩
    case refine_2 => cases x <;> simp_all
    case refine_3 => cases v <;> simp_all; omega
    all_goals simp_all

theorem Refines.finishCount (hpc : (s.process i).pc = .finishCount) :
    ∃ a', Ferry.Step a i a' ∧ Refines s' a' := by
  have hperson := h.person i
  have hlog := h.log
  have hfinish := h.value_eq (i := i) (v := .waitingToFinish) (by simp [hpc]) (by simp)
    (by simp)
  simp only [Ferry.value] at hfinish
  simp only [member, hpc] at hs
  cases hs
  by_cases hw : a.toFinish + 1 = 2 * p
  · refine ⟨_, .countLast (by simp [hperson, hpc]) hw,
      h.update rfl ?_ (fun x => ?_) (fun v hv => ?_) ?_ ?_ ?_⟩
    case refine_2 => cases x <;> simp_all; omega
    case refine_3 => cases v <;> simp_all; omega
    all_goals simp_all
  · refine ⟨_, .count (by simp [hperson, hpc]) hw,
      h.update rfl ?_ (fun x => ?_) (fun v hv => ?_) ?_ ?_ ?_⟩
    case refine_2 => cases x <;> simp_all
    case refine_3 => cases v <;> simp_all; omega
    all_goals simp_all

/-- Each step of a process is silent or a step of the ferry. -/
theorem Refines.step : Refines s' a ∨ ∃ a', Ferry.Step a i a' ∧ Refines s' a' := by
  cases hpc : (s.process i).pc with
  | unborn => exact .inl (h.unborn hs hpc)
  | startWait | pierWait | groupWait | boardWait | roleWait | landWait | finishCountWait
  | endWait => exact .inl (h.enter hs (by simp [hpc]))
  | startPost | pierPost | groupRelease | boardRelease | roleRelease | landRelease | endPost =>
    exact .inl (h.leave hs (by simp [hpc]))
  | moloPost | landMoloPost => exact .inl (h.loop hs (by simp [hpc]))
  | landReset => exact .inl (h.settle hs (by simp [hpc]))
  | groupPost g m n =>
    match m, n, hpc with
    | m + 1, n, hpc => exact .inl (h.loop hs (by simp [hpc]))
    | 0, n + 1, hpc => exact .inl (h.loop hs (by simp [hpc]))
    | 0, 0, hpc => exact .inl (h.settle hs (by simp [hpc]))
  | boardPost n | rolePost n =>
    cases n with
    | zero => exact .inl (h.settle hs (by simp [hpc]))
    | succ n => exact .inl (h.loop hs (by simp [hpc]))
  | finishPost n =>
    cases n with
    | zero => exact .inl (h.leave hs (by simp [hpc]))
    | succ n => exact .inl (h.loop hs (by simp [hpc]))
  | startPrint => exact .inr (h.startPrint hs hpc)
  | moloWait => exact .inr (h.moloWait hs hpc)
  | pierPrint => exact .inr (h.pierPrint hs hpc)
  | groupTest => exact .inr (h.groupTest hs hpc)
  | boatWait => exact .inr (h.boatWait hs hpc)
  | boardPrint => exact .inr (h.boardPrint hs hpc)
  | boardingWait => exact .inr (h.boardingWait hs hpc)
  | rolePrint => exact .inr (h.rolePrint hs hpc)
  | landingWait => exact .inr (h.landingWait hs hpc)
  | sail n =>
    cases n with
    | zero => exact .inr (h.sailWait hs hpc)
    | succ n => exact .inr (h.post hs hpc)
  | landPrint => exact .inr (h.landPrint hs hpc)
  | finishCount => exact .inr (h.finishCount hs hpc)
  | finishWait => exact .inr (h.finishWait hs hpc)
  | endPrint => exact .inr (h.endPrint hs hpc)
  | done => simp [member, hpc] at hs

end

theorem Refines.init (p : Nat) : Refines (init p) (Ferry.init p) where
  person _ := rfl
  token x := by
    have hz : census (fun _ q => pending x q.pc) (RiverCrossing.init p).process = 0 :=
      census_zero fun _ => by cases x <;> rfl
    rw [hz]
    cases x <;> rfl
  value v hv := by
    have hz : census (fun _ q => owed v q.pc) (RiverCrossing.init p).process = 0 :=
      census_zero fun _ => by cases v <;> rfl
    rw [hz]
    cases v <;> rfl
  full _ := .inl rfl
  log := rfl

/-- Every state of the program is one of the ferry. -/
theorem exists_refines (h : (system p).Reachable s) : ∃ a : Ferry p, a.Reachable ∧ Refines s a := by
  refine h.simulation (R := Refines) (Refines.init p) fun {s i s' a} hr hs => ?_
  rcases hr.step hs with hr' | ⟨a', ha, hr'⟩
  · exact ⟨a, .refl, hr'⟩
  · exact ⟨a', .single ⟨i, ha⟩, hr'⟩

end

end RiverCrossing
