import FitProjects.POS.TicketOrder
import FitProjects.Lib.Census
import Mathlib.Algebra.GroupWithZero.Nat

/-! # Wake-ups of the ticket lock

`advance` changes `actualTicket` and broadcasts without holding the mutex, so a thread can test the
old value in `await`, be overtaken by the increment and by the broadcast, and go to sleep when
nobody is left to wake it (`lostWakeup`). `Timely` says of a step that it does not do this; in
the runs of timely steps the thread whose turn it is always has a broadcast coming, and some thread
can run on until all are done. -/

namespace TicketLock

variable {N : Nat} {s s' : State N} {a : Act N} {i j k : Fin N} {M : Int}

attribute [local grind] Pc.HoldsMutex Pc.HoldsTicket Pc.Waiting Pc.OnTurn Pc.HasPrinted

/-- The last pending broadcast is not issued while the thread whose turn it is stands between its
failed test and `pthread_cond_wait`. -/
def Timely (s : State N) : Act N → Prop
  | .run i => (s.thread i).pc = .advanceBroadcast →
    (∃ j, (s.thread j).pc = .awaitWait ∧ (s.thread j).ticket = s.actualTicket) →
      ∃ k, k ≠ i ∧ (s.thread k).pc = .advanceBroadcast
  | .spuriousWake _ => True

instance : ∀ a, Decidable (Timely s a)
  | .run _ => inferInstanceAs (Decidable (_ → _ → _))
  | .spuriousWake _ => .isTrue trivial

/-- The thread is asleep, or has already decided to go to sleep. -/
def Pc.Dozing (pc : Pc) : Prop := pc = .awaitWait ∨ pc = .awaitAsleep

attribute [local grind] Pc.Dozing

/-- The invariant of the runs of timely steps, on top of `Inv`. -/
structure WakeInv (M : Int) (s : State N) : Prop extends Inv s where
  waiting_lt : ∀ i, (s.thread i).pc.Waiting → (s.thread i).ticket < M
  held : ∀ t, s.actualTicket ≤ t → t ≤ s.nextTicket → t < M →
    ∃ i, (s.thread i).pc.HoldsTicket ∧ (s.thread i).ticket = t
  pending : ∀ j, (s.thread j).pc.Dozing → (s.thread j).ticket = s.actualTicket →
    ∃ i, (s.thread i).pc = .advanceBroadcast

theorem wakeInv_init (N : Nat) (M : Int) : WakeInv M (init N) where
  toInv := inv_init N
  waiting_lt i hi := by grind [init]
  held t h0 h1 := by grind [init]
  pending j hj := by grind [init]

namespace Step

theorem inv_waiting_lt (h : ∀ i, (s.thread i).pc.Waiting → (s.thread i).ticket < M)
    (hs : Step M s a s') (hj : (s'.thread j).pc.Waiting) : (s'.thread j).ticket < M := by
  cases hs <;> grind

/-- A thread gives its ticket up by incrementing `actualTicket`, or because it is not below the
limit. -/
theorem holdsTicket_kept (hs : Step M s a s') (hj : (s.thread j).pc.HoldsTicket) :
    (s'.thread j).pc.HoldsTicket ∧ (s'.thread j).ticket = (s.thread j).ticket ∨
      a = .run j ∧ (s.thread j).pc = .advanceIncrement ∨ M ≤ (s.thread j).ticket := by
  cases hs <;> grind

theorem inv_held (h : WakeInv M s) (hc : NoOverflow s a) (hs : Step M s a s') (t : Int)
    (h0 : s'.actualTicket ≤ t) (h1 : t ≤ s'.nextTicket) (ht : t < M) :
    ∃ i, (s'.thread i).pc.HoldsTicket ∧ (s'.thread i).ticket = t := by
  have hkeep : ∀ i, (s.thread i).pc.HoldsTicket → (s.thread i).ticket = t →
      (a = .run i → (s.thread i).pc ≠ .advanceIncrement) →
      ∃ i, (s'.thread i).pc.HoldsTicket ∧ (s'.thread i).ticket = t := by
    intro i hi hit hne
    rcases hs.holdsTicket_kept hi with ⟨hk, hkt⟩ | ⟨ha, hpc⟩ | hM
    · exact ⟨i, hk, hkt.trans hit⟩
    · exact absurd hpc (hne ha)
    · omega
  rcases hs.counters h.toInv hc with ⟨hn, ha⟩ | ⟨i, rfl, hi, rfl, hn⟩ | ⟨i, rfl, hi, rfl⟩
  · obtain ⟨i, hi, hit⟩ := h.held t (by omega) (by omega) ht
    refine hkeep i hi hit fun hai hpc => ?_
    subst hai
    have hinc := h.actual_increment (hc.2 hpc)
    cases hs <;> grind
  · by_cases hnew : t = s.nextTicket + 1
    · exact ⟨i, by grind⟩
    · obtain ⟨l, hl, hlt⟩ := h.held t h0 (by omega) ht
      exact hkeep l hl hlt (by grind)
  · -- `t` lies above the ticket that thread `i` gives up
    obtain ⟨l, hl, hlt⟩ := h.held t (by grind) h1 ht
    have hti := h.turn i (by grind)
    exact hkeep l hl hlt (by grind)

theorem inv_pending (h : WakeInv M s) (hc : NoOverflow s a) (hT : Timely s a)
    (hs : Step M s a s') (hj : (s'.thread j).pc.Dozing)
    (hjt : (s'.thread j).ticket = s'.actualTicket) :
    ∃ i, (s'.thread i).pc = .advanceBroadcast := by
  have hp := h.pending j
  have hb := h.bounds j
  cases hs with
  | @increment i hpc => exact ⟨i, by grind⟩
  | broadcast hpc =>
    obtain ⟨k, hk, hkpc⟩ := hT hpc ⟨j, by grind⟩
    exact ⟨k, by grind⟩
  | draw hpc =>
    obtain ⟨l, hl⟩ := hp (by grind) (by grind)
    exact ⟨l, by grind⟩
  | _ =>
    obtain ⟨l, hl⟩ := hp (by grind) (by grind)
    exact ⟨l, by grind⟩

end Step

theorem Step.wakeInv (h : WakeInv M s) (hc : NoOverflow s a) (hT : Timely s a)
    (hs : Step M s a s') : WakeInv M s' where
  toInv := hs.inv h.toInv hc
  waiting_lt _ := hs.inv_waiting_lt h.waiting_lt
  held := hs.inv_held h hc
  pending _ := hs.inv_pending h hc hT

theorem wakeInv_of_reachable
    (h : (system N M).ReachableUnder (fun s a => NoOverflow s a ∧ Timely s a) s) : WakeInv M s :=
  h.invariant (wakeInv_init N M) fun hi hc hs => (step_cases hs).wakeInv hi hc.1 hc.2

/-! ## Progress -/

/-- A thread that is neither blocked nor done can run on. -/
theorem runThread_isSome (hlock : s.mutexTicket = none ∨
      (s.thread i).pc ≠ .getticketLock ∧ (s.thread i).pc ≠ .awaitLock ∧
        (s.thread i).pc ≠ .awaitWoken)
    (hsleep : (s.thread i).pc ≠ .awaitAsleep) (hdone : (s.thread i).pc ≠ .done) :
    ∃ s', runThread M s i = some s' := by
  have hl : ∀ pc, s.mutexTicket = none → ∃ s', s.lock i pc = some s' := fun pc hm =>
    ⟨_, by rw [State.lock, if_pos hm]⟩
  unfold runThread
  cases hpc : (s.thread i).pc
  case getticketLock | awaitLock | awaitWoken => exact hl _ (by grind)
  case awaitAsleep => exact absurd hpc hsleep
  case done => exact absurd hpc hdone
  all_goals exact ⟨_, rfl⟩

/-- The holder of the mutex can run on; when nobody holds it, nobody is blocked on it. -/
theorem Inv.blocked (h : Inv s) (hb : ∀ i s', runThread M s i ≠ some s') (i : Fin N) :
    (s.thread i).pc = .awaitAsleep ∨ (s.thread i).pc = .done := by
  have hfree : s.mutexTicket = none := by
    cases hm : s.mutexTicket with
    | none => rfl
    | some j =>
      have hj := (h.mutex j).mpr hm
      obtain ⟨s', hs'⟩ := runThread_isSome (M := M) (s := s) (i := j) (.inr (by grind))
        (by grind) (by grind)
      exact absurd hs' (hb j s')
  by_contra hne
  obtain ⟨s', hs'⟩ := runThread_isSome (M := M) (s := s) (i := i) (.inl hfree) (by grind)
    (by grind)
  exact hb i s' hs'

/-- What the claim of no lost wake-up asks of a state. A thread asleep whose ticket is the actual
one has an increment or a broadcast of another thread coming, and unless all threads are done,
one of them can run on. -/
structure WakeupSafe (M : Int) (s : State N) : Prop where
  coming : ∀ j, (s.thread j).pc = .awaitAsleep → (s.thread j).ticket = s.actualTicket →
    ∃ i, i ≠ j ∧ ((s.thread i).pc.OnTurn ∨ (s.thread i).pc = .advanceBroadcast)
  live : (∀ i, (s.thread i).pc = .done) ∨ ∃ i s', runThread M s i = some s'

theorem WakeInv.coming (h : WakeInv M s) (hj : (s.thread j).pc = .awaitAsleep)
    (ht : (s.thread j).ticket = s.actualTicket) :
    ∃ i, i ≠ j ∧ ((s.thread i).pc.OnTurn ∨ (s.thread i).pc = .advanceBroadcast) := by
  obtain ⟨i, hi⟩ := h.pending j (.inr hj) ht
  exact ⟨i, by grind, .inr hi⟩

/-- If all threads were asleep or done, the holder of the actual ticket would be asleep. -/
theorem WakeInv.live (h : WakeInv M s) :
    (∀ i, (s.thread i).pc = .done) ∨ ∃ i s', runThread M s i = some s' := by
  by_contra hne
  push Not at hne
  obtain ⟨⟨j, hj⟩, hb⟩ := hne
  have hall := h.blocked hb
  have hasleep := (hall j).resolve_right hj
  have hlt := h.waiting_lt j (by grind)
  have hbj := h.bounds j (by grind)
  obtain ⟨i, hi, hit⟩ := h.held s.actualTicket le_rfl (by omega) (by omega)
  obtain ⟨k, hk⟩ := h.pending i (.inr ((hall i).resolve_right (by grind))) hit
  grind

/-- In every run of timely steps in which no counter overflows, no wake-up is lost. -/
theorem wakeupSafe_of_timely (N : Nat) (passThroughs : Int) (s : State N)
    (h : (system N passThroughs).ReachableUnder (fun s a => NoOverflow s a ∧ Timely s a) s) :
    WakeupSafe passThroughs s where
  coming _ := (wakeInv_of_reachable h).coming
  live := (wakeInv_of_reachable h).live

/-- The same two threads, thread 1 asleep before the increment and woken by the broadcast. -/
theorem wakeupSafe_of_timely_turns :
    ∃ s : State 2, (s.thread 1).pc = .awaitWoken ∧ WakeupSafe 2 s := by
  obtain ⟨s, hr, hs⟩ := System.exists_runs
    (M := (system 2 2).restrict fun s a => NoOverflow s a ∧ Timely s a) (s := init 2)
    (l := List.replicate 5 (.run 0) ++ List.replicate 5 (.run 1) ++ List.replicate 4 (.run 0) ++
      List.replicate 3 (.run 1) ++ List.replicate 2 (.run 0))
    (p := fun s => (s.thread 1).pc = .awaitWoken) (by decide)
  exact ⟨s, of_decide_eq_true hs,
    wakeupSafe_of_timely 2 2 s (System.Reachable.runs .init hr).of_restrict⟩

/-! ## A lost wake-up -/

local instance neZero_two : NeZero 2 := ⟨by decide⟩

/-- Thread 1 tests the old `actualTicket`, thread 0 increments it and broadcasts, thread 1 goes to
sleep, and thread 0 draws a ticket that is not below the limit and returns. -/
def lostWakeupRun : List (Act 2) :=
  -- tickets 0 and 1 are drawn, thread 0 prints and unlocks
  (List.replicate 5 (.run 0) ++ List.replicate 5 (.run 1) ++ List.replicate 4 (.run 0)) ++
  -- thread 1 locks and tests; thread 0 increments and broadcasts; thread 1 goes to sleep
  [.run 1, .run 1, .run 0, .run 0, .run 1] ++
  List.replicate 5 (.run 0)

/-- With two threads and `passThroughs = 2`, thread 1 can be left asleep with the actual ticket
while thread 0 has returned: a lost wake-up, and a deadlock with an unserved ticket. -/
theorem lostWakeup :
    ∃ s, (system 2 2).Reachable s ∧ ¬ WakeupSafe 2 s ∧ ∀ i, runThread 2 s i = none := by
  obtain ⟨s, hr, hs⟩ := System.exists_runs (M := system 2 2) (s := init 2) (l := lostWakeupRun)
    (p := fun s => (s.thread 0).pc = .done ∧ (s.thread 1).pc = .awaitAsleep ∧
      (s.thread 1).ticket = s.actualTicket) (by decide)
  obtain ⟨h0, h1, ht⟩ := of_decide_eq_true hs
  have hcases : ∀ i : Fin 2, i = 0 ∨ i = 1 := by decide
  refine ⟨s, System.Reachable.runs .init hr, fun h => ?_, fun i => ?_⟩
  · obtain ⟨i, hi, hpc⟩ := h.coming 1 h1 ht
    rcases hcases i with rfl | rfl <;> grind
  · rcases hcases i with rfl | rfl <;> simp [runThread, h0, h1]

/-! ## A bound that excludes overflow -/

/-- The thread has drawn a ticket that is not below the limit. -/
def retired (M : Int) (t : Thread) : Nat :=
  if M ≤ t.ticket ∧ (t.pc = .getticketUnlock ∨ t.pc = .workerTest ∨ t.pc = .done) then 1 else 0

/-- Every ticket from the limit on retires a thread. -/
structure BoundInv (M : Int) (s : State N) : Prop extends Inv s where
  waiting_lt : ∀ i, (s.thread i).pc.Waiting → (s.thread i).ticket < M
  next_le : s.nextTicket + 1 ≤ max M 0 + census (fun _ => retired M) s.thread

theorem boundInv_init (N : Nat) (M : Int) : BoundInv M (init N) where
  toInv := inv_init N
  waiting_lt i hi := by grind [init]
  next_le := by simp only [init]; omega

/-- A retired thread stays so. -/
theorem Step.retired_le (hs : Step M s a s') (j : Fin N) :
    retired M (s.thread j) ≤ retired M (s'.thread j) := by
  cases hs <;> grind [retired]

theorem Step.boundInv (h : BoundInv M s) (hc : NoOverflow s a) (hs : Step M s a s') :
    BoundInv M s' where
  toInv := hs.inv h.toInv hc
  waiting_lt _ := hs.inv_waiting_lt h.waiting_lt
  next_le := by
    have hle := h.next_le
    have hmono : census (fun _ => retired M) s.thread ≤ census (fun _ => retired M) s'.thread :=
      census_mono hs.retired_le
    rcases hs.counters h.toInv hc with ⟨hn, ha⟩ | ⟨i, rfl, hi, rfl, hn⟩ | ⟨i, rfl, hi, rfl⟩
    · omega
    · by_cases hM : M ≤ s.nextTicket + 1
      · -- thread `i` retires with the ticket it draws
        have hupd := census_update (fun _ => retired M) s.thread i
          ⟨.getticketUnlock, TicketLock.increment s.nextTicket⟩
        rw [State.draw_nextTicket] at hn
        have hold : retired M (s.thread i) = 0 := by grind [retired]
        have hnew : retired M ⟨.getticketUnlock, TicketLock.increment s.nextTicket⟩ = 1 := by
          grind [retired]
        simp only [State.draw] at hmono ⊢
        omega
      · omega
    · exact le_trans hle (by simpa using hmono)

theorem boundInv_of_reachable (h : (system N M).ReachableUnder NoOverflow s) : BoundInv M s :=
  h.invariant (boundInv_init N M) fun hi hc hs => (step_cases hs).boundInv hi hc

/-- With `max passThroughs 0` plus the number of threads at most `2 ^ 31`, no run overflows. -/
theorem noOverflow_of_bound (hN : max M 0 + N ≤ 2 ^ 31) (h : (system N M).Reachable s) :
    (system N M).ReachableUnder NoOverflow s := by
  refine System.ReachableUnder.imp (fun {s a} hr _ => ?_) h
  have hb := boundInv_of_reachable hr
  cases a with
  | spuriousWake i => trivial
  | run i =>
    refine ⟨fun hpc => ?_, fun hpc => ?_⟩
    · -- thread `i` is not retired yet, so that at most `N - 1` tickets reach the limit
      have hlt : census (fun _ => retired M) s.thread < Fintype.card (Fin N) :=
        census_lt_card (i := i) (fun j => by grind [retired]) (by grind [retired])
      have hle := hb.next_le
      simp only [Fintype.card_fin, intMax] at hlt ⊢
      omega
    · have hlt := hb.waiting_lt i (by grind)
      have ht := hb.turn i (by grind)
      have hpos : 0 < N := i.pos
      simp only [intMax]
      omega

end TicketLock
