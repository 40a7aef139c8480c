import FitProjects.IOS.RiverRefinement

/-! # Runs of the river crossing

What holds of the ferry holds of the program: its log is as it must be, and it never gets stuck. -/

namespace RiverCrossing

variable {p : Nat} {s s' : State p} {a : Ferry p} {i : Pid p}

/-- In every run the log is as it must be. -/
theorem logOk_of_reachable (h : (system p).Reachable s) : LogOk s.log := by
  obtain ⟨a, ha, hr⟩ := exists_refines h
  exact hr.log ▸ ha.inv.2.2

/-- Two hackers and two serfs arrive, cross and leave. -/
def crossing : List (Pid 2) :=
  let h := (Kind.hacker, 0); let h' := (Kind.hacker, 1)
  let f := (Kind.serf, 0); let f' := (Kind.serf, 1)
  List.replicate 12 h ++ List.replicate 12 h' ++ List.replicate 12 f ++ List.replicate 11 f' ++
  [h, f', h', f', f, f', f', f', h, h, h, h', h', h', f, f, f, f', f', f', f'] ++
  [h, f', h', f', f, f', f', f', h, h, h, h', h', h', f, f, f, f', f', f', f'] ++
  [h, f', h', f', f] ++ List.replicate 5 f' ++ List.replicate 7 h ++ [f'] ++
  List.replicate 7 h' ++ [f'] ++ List.replicate 7 f ++ List.replicate 10 f' ++
  [h, f', h', f', f, f', f', h, h, h, h', h', h', f, f, f, f', f', f', f']

theorem logOk_crossing :
    ∃ s : State 2, (∀ i, i ∈ who .finished s.log) ∧ LogOk s.log := by
  obtain ⟨s, hr, hs⟩ := System.exists_runs (M := system 2) (s := init 2) (l := crossing)
    (p := fun s => ∀ i, i ∈ who .finished s.log) (by decide +kernel)
  exact ⟨s, of_decide_eq_true hs, logOk_of_reachable (System.Reachable.runs .init hr)⟩

/-- A process in a critical section is never blocked. -/
theorem not_pending_of_stuck (h : member s i = none) : pending .exclusive (s.process i).pc = 0 := by
  cases hpc : (s.process i).pc <;> simp only [pending]
  all_goals
    simp only [member, hpc, reduceCtorEq] at h
  case groupTest => split at h <;> cases h
  case groupPost g m n => cases m <;> [cases n; skip] <;> cases h
  case boardPost n | rolePost n | finishPost n => cases n <;> cases h

theorem wait_eq_none (h : s.wait x i pc = none) : s.semaphore x = 0 := by
  simpa [State.wait] using h

/-- If no process can go on then nobody on the ferry can. -/
theorem Refines.blocked (hr : Refines s a) (h : ∀ i, member s i = none) (i : Pid p) :
    a.Blocked i := by
  have htoken (x : Esemaphore) : a.token x = s.semaphore x := by
    have hz : census (fun (_ : Pid p) q => pending x q.pc) s.process = 0 :=
      census_zero fun j => pending_exclusive _ _ (not_pending_of_stuck (h j))
    rw [hr.token x, hz, Nat.add_zero]
  have hfree : s.semaphore .exclusive ≠ 0 := by simp [← htoken, Ferry.token]
  have hi := h i
  have hcrit := not_pending_of_stuck hi
  have hstage : (a.person i).stage = (s.process i).pc.stage := by rw [hr.person i]; rfl
  have hboat : a.token i.1.boat = a.boat i.1 := by cases i.1 <;> rfl
  unfold Ferry.Blocked
  cases hpc : (s.process i).pc <;> simp only [member, hpc, Pc.stage] at hi hstage <;>
    simp only [hstage]
  case unborn => cases hi
  case moloWait => exact (htoken .molo).trans (wait_eq_none hi)
  case boatWait => exact hboat ▸ (htoken i.1.boat).trans (wait_eq_none hi)
  case boardingWait => exact (htoken .boarding).trans (wait_eq_none hi)
  case landingWait => exact (htoken .landing).trans (wait_eq_none hi)
  case finishWait => exact (htoken .finish).trans (wait_eq_none hi)
  case sail n =>
    cases n with
    | zero => exact (htoken .captain).trans (wait_eq_none hi)
    | succ n => cases hi
  case startWait | pierWait | groupWait | boardWait | roleWait | landWait | finishCountWait
      | endWait => exact hfree (wait_eq_none hi)
  all_goals simp [hpc, pending] at hcrit

/-- Deadlock freedom: as long as not all processes have ended, one of them can go on. -/
theorem deadlockFree (he : Even p) (h : (system p).Reachable s) :
    (∀ i, (s.process i).pc = .done) ∨ ∃ i s', member s i = some s' := by
  by_cases hstuck : ∀ i, member s i = none
  · obtain ⟨a, ha, hr⟩ := exists_refines h
    refine .inl fun i => ?_
    have hleft := ha.inv.1.all_left (hr.blocked hstuck) he i
    have hcrit := not_pending_of_stuck (hstuck i)
    rw [hr.person i] at hleft
    cases hpc : (s.process i).pc <;> simp_all [Process.person, Pc.stage, pending]
  · obtain ⟨i, hi⟩ := not_forall.mp hstuck
    obtain ⟨s', hs'⟩ := Option.ne_none_iff_exists'.mp hi
    exact .inr ⟨i, s', hs'⟩

/-- The first hacker waits for a group, the others are still to come. -/
theorem deadlockFree_waiting : ∃ s : State 2, member s (.hacker, 0) = none ∧
    ((∀ i, (s.process i).pc = .done) ∨ ∃ i s', member s i = some s') := by
  obtain ⟨s, hr, hs⟩ := System.exists_runs (M := system 2) (s := init 2)
    (l := List.replicate 12 (.hacker, 0)) (p := fun s => (member s (.hacker, 0)).isNone)
    (by decide +kernel)
  exact ⟨s, Option.isNone_iff_eq_none.mp hs,
    deadlockFree (by decide) (System.Reachable.runs .init hr)⟩

end RiverCrossing
