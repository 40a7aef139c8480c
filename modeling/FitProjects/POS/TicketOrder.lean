import FitProjects.POS.TicketLock
import Mathlib.Tactic.Common
import Mathlib.Data.List.Nodup

/-! # Ticket order and mutual exclusion

The invariant `Inv` of the runs in which no `int` counter overflows, and the ticket order derived
from it. `actualTicket` is incremented after the mutex has been released, so mutual exclusion of the
mutex is not what orders the threads. What does is that the tickets held are pairwise distinct and
not below `actualTicket` (`Inv.inj`, `Inv.bounds`), and that a thread past the test of `await` holds
the ticket equal to it (`Inv.turn`). -/

namespace TicketLock

theorem increment_of_lt (h0 : -1 ≤ x) (h : x < intMax) : increment x = x + 1 := by
  unfold increment intMax at *
  rw [Int.bmod_def]
  omega

/-! ## One lemma for the steps -/

section
variable {N : Nat} {s : State N} {i j : Fin N} {pc : Pc}

namespace State

@[simp, grind =] theorem goto_pc :
    ((s.goto i pc).thread j).pc = if j = i then pc else (s.thread j).pc := by
  by_cases h : j = i <;> simp [goto, h]

@[simp, grind =] theorem goto_ticket : ((s.goto i pc).thread j).ticket = (s.thread j).ticket := by
  by_cases h : j = i <;> simp [goto, h]

@[simp, grind =] theorem goto_mutexTicket : (s.goto i pc).mutexTicket = s.mutexTicket := rfl
@[simp, grind =] theorem goto_nextTicket : (s.goto i pc).nextTicket = s.nextTicket := rfl
@[simp, grind =] theorem goto_actualTicket : (s.goto i pc).actualTicket = s.actualTicket := rfl
@[simp, grind =] theorem goto_returned : (s.goto i pc).returned = s.returned := rfl
@[simp, grind =] theorem goto_printed : (s.goto i pc).printed = s.printed := rfl

@[simp, grind =] theorem draw_pc :
    ((s.draw i).thread j).pc = if j = i then .getticketUnlock else (s.thread j).pc := by
  by_cases h : j = i <;> simp [draw, h]

@[simp, grind =] theorem draw_ticket :
    ((s.draw i).thread j).ticket =
      if j = i then increment s.nextTicket else (s.thread j).ticket := by
  by_cases h : j = i <;> simp [draw, h]

@[simp, grind =] theorem draw_mutexTicket : (s.draw i).mutexTicket = s.mutexTicket := rfl
@[simp, grind =] theorem draw_nextTicket : (s.draw i).nextTicket = increment s.nextTicket := rfl
@[simp, grind =] theorem draw_actualTicket : (s.draw i).actualTicket = s.actualTicket := rfl
@[simp, grind =] theorem draw_returned : (s.draw i).returned = s.returned := rfl
@[simp, grind =] theorem draw_printed : (s.draw i).printed = s.printed := rfl
@[simp, grind =] theorem broadcast_mutexTicket : s.broadcast.mutexTicket = s.mutexTicket := rfl
@[simp, grind =] theorem broadcast_nextTicket : s.broadcast.nextTicket = s.nextTicket := rfl
@[simp, grind =] theorem broadcast_actualTicket : s.broadcast.actualTicket = s.actualTicket := rfl
@[simp, grind =] theorem broadcast_returned : s.broadcast.returned = s.returned := rfl
@[simp, grind =] theorem broadcast_printed : s.broadcast.printed = s.printed := rfl

@[simp, grind =] theorem broadcast_pc :
    (s.broadcast.thread j).pc =
      if (s.thread j).pc = .awaitAsleep then .awaitWoken else (s.thread j).pc := by
  by_cases h : (s.thread j).pc = .awaitAsleep <;> simp [broadcast, h]

@[simp, grind =] theorem broadcast_ticket :
    (s.broadcast.thread j).ticket = (s.thread j).ticket := by
  by_cases h : (s.thread j).pc = .awaitAsleep <;> simp [broadcast, h]

end State

end

/-- Everything a step can do: which statement it runs, under which guard, and what it changes. -/
inductive Step (M : Int) (s : State N) : Act N → State N → Prop
  | lock (hm : s.mutexTicket = none) (hpc : (s.thread i).pc = .getticketLock) :
    Step M s (.run i) { s.goto i .getticketIncrement with mutexTicket := some i }
  | relock (hm : s.mutexTicket = none)
      (hpc : (s.thread i).pc = .awaitLock ∨ (s.thread i).pc = .awaitWoken) :
    Step M s (.run i) { s.goto i .awaitTest with mutexTicket := some i }
  | draw (hpc : (s.thread i).pc = .getticketIncrement) : Step M s (.run i) (s.draw i)
  | giveOut (hpc : (s.thread i).pc = .getticketUnlock) :
    Step M s (.run i)
      { s.goto i .workerTest with
        mutexTicket := none, returned := (s.thread i).ticket :: s.returned }
  | enter (hpc : (s.thread i).pc = .workerTest) (ht : (s.thread i).ticket < M) :
    Step M s (.run i) (s.goto i .workerDelay)
  | leave (hpc : (s.thread i).pc = .workerTest) (ht : M ≤ (s.thread i).ticket) :
    Step M s (.run i) (s.goto i .done)
  | delay (hpc : (s.thread i).pc = .workerDelay) : Step M s (.run i) (s.goto i .awaitLock)
  | stay (hpc : (s.thread i).pc = .awaitTest) (ht : (s.thread i).ticket ≠ s.actualTicket) :
    Step M s (.run i) (s.goto i .awaitWait)
  | pass (hpc : (s.thread i).pc = .awaitTest) (ht : (s.thread i).ticket = s.actualTicket) :
    Step M s (.run i) (s.goto i .workerPrint)
  | sleep (hpc : (s.thread i).pc = .awaitWait) :
    Step M s (.run i) { s.goto i .awaitAsleep with mutexTicket := none }
  | print (hpc : (s.thread i).pc = .workerPrint) :
    Step M s (.run i)
      { s.goto i .advanceUnlock with
        printed := ((s.thread i).ticket, i.val + 1) :: s.printed }
  | release (hpc : (s.thread i).pc = .advanceUnlock) :
    Step M s (.run i) { s.goto i .advanceIncrement with mutexTicket := none }
  | increment (hpc : (s.thread i).pc = .advanceIncrement) :
    Step M s (.run i)
      { s.goto i .advanceBroadcast with actualTicket := increment s.actualTicket }
  | broadcast (hpc : (s.thread i).pc = .advanceBroadcast) :
    Step M s (.run i) (s.broadcast.goto i .workerRest)
  | rest (hpc : (s.thread i).pc = .workerRest) : Step M s (.run i) (s.goto i .getticketLock)
  | wake (hpc : (s.thread i).pc = .awaitAsleep) :
    Step M s (.spuriousWake i) (s.goto i .awaitWoken)

section
variable {N : Nat} {s s' : State N} {a : Act N} {i j : Fin N} {pc : Pc} {M : Int}

theorem lock_eq_some (h : s.lock i pc = some s') :
    s.mutexTicket = none ∧ s' = { s.goto i pc with mutexTicket := some i } := by
  simp only [State.lock, Option.ite_none_right_eq_some, Option.some.injEq] at h
  exact ⟨h.1, h.2.symm⟩

theorem step_cases (h : (system N M).step s a = some s') : Step M s a s' := by
  cases a with
  | spuriousWake i =>
    simp only [system, spuriousWake, Option.ite_none_right_eq_some, Option.some.injEq] at h
    obtain ⟨hpc, rfl⟩ := h
    exact .wake hpc
  | run i =>
    simp only [system, runThread] at h
    cases hpc : (s.thread i).pc <;> simp only [hpc, Option.some.injEq, reduceCtorEq] at h
    case getticketLock => obtain ⟨hm, rfl⟩ := lock_eq_some h; exact .lock hm hpc
    case awaitLock => obtain ⟨hm, rfl⟩ := lock_eq_some h; exact .relock hm (.inl hpc)
    case awaitWoken => obtain ⟨hm, rfl⟩ := lock_eq_some h; exact .relock hm (.inr hpc)
    case workerTest =>
      split at h <;> subst h
      · exact .enter hpc ‹_›
      · exact .leave hpc (by omega)
    case awaitTest =>
      split at h <;> subst h
      · exact .stay hpc ‹_›
      · exact .pass hpc (not_not.mp ‹_›)
    all_goals subst h
    case getticketIncrement => exact .draw hpc
    case getticketUnlock => exact .giveOut hpc
    case workerDelay => exact .delay hpc
    case awaitWait => exact .sleep hpc
    case workerPrint => exact .print hpc
    case advanceUnlock => exact .release hpc
    case advanceIncrement => exact .increment hpc
    case advanceBroadcast => exact .broadcast hpc
    case workerRest => exact .rest hpc

/-! ## The invariant -/

namespace Pc

/-- The points at which a thread holds `mutexTicket`. -/
def HoldsMutex (pc : Pc) : Prop :=
  pc = .getticketIncrement ∨ pc = .getticketUnlock ∨ pc = .awaitTest ∨ pc = .awaitWait ∨
    pc = .workerPrint ∨ pc = .advanceUnlock

/-- Between the return of `await` and the unlock in `advance`. -/
def Critical (pc : Pc) : Prop := pc = .workerPrint ∨ pc = .advanceUnlock

/-- The ticket is printed and `actualTicket` is still equal to it. -/
def HasPrinted (pc : Pc) : Prop := pc = .advanceUnlock ∨ pc = .advanceIncrement

/-- Past the test of `await` and not past the increment of `actualTicket`. -/
def OnTurn (pc : Pc) : Prop := pc = .workerPrint ∨ pc.HasPrinted

/-- The thread has drawn a ticket below the limit, and `actualTicket` is not past it. -/
def Waiting (pc : Pc) : Prop :=
  pc = .workerDelay ∨ pc = .awaitLock ∨ pc = .awaitTest ∨ pc = .awaitWait ∨
    pc = .awaitAsleep ∨ pc = .awaitWoken ∨ pc.OnTurn

/-- The thread has drawn a ticket that has not been served yet. -/
def HoldsTicket (pc : Pc) : Prop := pc = .getticketUnlock ∨ pc = .workerTest ∨ pc.Waiting

end Pc

/-- Neither `++nextTicket` nor `++actualTicket` is run at the largest `int`. -/
def NoOverflow (s : State N) : Act N → Prop
  | .run i =>
    ((s.thread i).pc = .getticketIncrement → s.nextTicket < intMax) ∧
      ((s.thread i).pc = .advanceIncrement → s.actualTicket < intMax)
  | .spuriousWake _ => True

instance : ∀ a, Decidable (NoOverflow s a)
  | .run _ => inferInstanceAs (Decidable (_ ∧ _))
  | .spuriousWake _ => .isTrue trivial

/-- The invariant of the runs without overflow. -/
structure Inv (s : State N) : Prop where
  mutex : ∀ i, (s.thread i).pc.HoldsMutex ↔ s.mutexTicket = some i
  actual_nonneg : 0 ≤ s.actualTicket
  actual_le : s.actualTicket ≤ s.nextTicket + 1
  bounds : ∀ i, (s.thread i).pc.HoldsTicket →
    s.actualTicket ≤ (s.thread i).ticket ∧ (s.thread i).ticket ≤ s.nextTicket
  inj : ∀ i j, (s.thread i).pc.HoldsTicket → (s.thread j).pc.HoldsTicket →
    (s.thread i).ticket = (s.thread j).ticket → i = j
  turn : ∀ i, (s.thread i).pc.OnTurn → (s.thread i).ticket = s.actualTicket
  fresh : ∀ i, (s.thread i).pc = .getticketUnlock → (s.thread i).ticket ∉ s.returned
  returned_le : ∀ t ∈ s.returned, t ≤ s.nextTicket
  returned_nodup : s.returned.Nodup
  printed_eq : s.printed.map (·.1) = (List.range s.printed.length).reverse.map Int.ofNat
  printed_on : ∀ i, (s.thread i).pc.HasPrinted →
    (s.printed.length : Int) = s.actualTicket + 1
  printed_off : (∃ i, (s.thread i).pc.HasPrinted) ∨
    (s.printed.length : Int) = s.actualTicket

attribute [local grind] Pc.HoldsMutex Pc.HoldsTicket Pc.Waiting Pc.OnTurn Pc.HasPrinted

theorem inv_init (N : Nat) : Inv (init N) := by
  constructor <;> grind [init]

theorem Inv.next_increment (h : Inv s) (hlt : s.nextTicket < intMax) :
    increment s.nextTicket = s.nextTicket + 1 :=
  increment_of_lt (by have := h.actual_nonneg; have := h.actual_le; omega) hlt

theorem Inv.actual_increment (h : Inv s) (hlt : s.actualTicket < intMax) :
    increment s.actualTicket = s.actualTicket + 1 :=
  increment_of_lt (by have := h.actual_nonneg; omega) hlt

/-- Nobody has printed while a thread is about to: both would hold the actual ticket. -/
theorem Inv.printed_length (h : Inv s) (hpc : (s.thread i).pc = .workerPrint) :
    (s.printed.length : Int) = s.actualTicket := by
  rcases h.printed_off with ⟨w, hw⟩ | hl
  · have := h.inj w i (by grind) (by grind)
      (by rw [h.turn w (by grind), h.turn i (by grind)])
    grind
  · exact hl

/-! ## What a step changes -/

namespace Step

/-- A ticket held after a step was held before, or has just been drawn. -/
theorem holdsTicket (hs : Step M s a s') (hj : (s'.thread j).pc.HoldsTicket) :
    (s.thread j).pc.HoldsTicket ∧ (s'.thread j).ticket = (s.thread j).ticket ∨
      a = .run j ∧ (s.thread j).pc = .getticketIncrement ∧ s' = s.draw j := by
  cases hs <;> grind

/-- A printed ticket stays the actual one until its thread increments `actualTicket`. -/
theorem hasPrinted (hs : Step M s a s') (hj : (s.thread j).pc.HasPrinted) :
    (s'.thread j).pc.HasPrinted ∨ a = .run j ∧ (s.thread j).pc = .advanceIncrement := by
  cases hs <;> grind

section
variable (h : Inv s) (hc : NoOverflow s a) (hs : Step M s a s')
include h hc hs

/-- Without overflow the two counters only grow, one of them by one. -/
theorem counters :
    s'.nextTicket = s.nextTicket ∧ s'.actualTicket = s.actualTicket ∨
      (∃ i, a = .run i ∧ (s.thread i).pc = .getticketIncrement ∧ s' = s.draw i ∧
        s'.nextTicket = s.nextTicket + 1) ∨
      ∃ i, a = .run i ∧ (s.thread i).pc = .advanceIncrement ∧
        s' = { s.goto i .advanceBroadcast with actualTicket := s.actualTicket + 1 } := by
  cases hs with
  | @draw i hpc => exact .inr (.inl ⟨i, rfl, hpc, rfl, h.next_increment (hc.1 hpc)⟩)
  | @increment i hpc =>
    refine .inr (.inr ⟨i, rfl, hpc, ?_⟩)
    rw [h.actual_increment (hc.2 hpc)]
  | _ => exact .inl ⟨rfl, rfl⟩

theorem inv_bounds (hj : (s'.thread j).pc.HoldsTicket) :
    s'.actualTicket ≤ (s'.thread j).ticket ∧ (s'.thread j).ticket ≤ s'.nextTicket := by
  have hle := h.actual_le
  rcases hs.holdsTicket hj with ⟨hj', ht⟩ | ⟨rfl, hpc, rfl⟩
  · have hb := h.bounds j hj'
    rcases hs.counters h hc with ⟨hn, ha⟩ | ⟨i, rfl, hi, rfl, hn⟩ | ⟨i, rfl, hi, rfl⟩
    · omega
    · rw [State.draw_actualTicket]; omega
    · -- the ticket that stops being the actual one is that of thread `i`
      have hji : j ≠ i := by grind
      have hne : (s.thread j).ticket ≠ (s.thread i).ticket := fun he =>
        hji (h.inj j i hj' (by grind) he)
      have := h.turn i (by grind)
      grind
  · have := h.next_increment (hc.1 hpc)
    grind

theorem inv_inj (hj : (s'.thread j).pc.HoldsTicket) (hk : (s'.thread k).pc.HoldsTicket)
    (hjk : (s'.thread j).ticket = (s'.thread k).ticket) : j = k := by
  -- a ticket that has just been drawn is larger than the others
  have hnew : ∀ {i l : Fin N}, a = .run i → (s.thread i).pc = .getticketIncrement →
      s' = s.draw i → (s.thread l).pc.HoldsTicket →
      (s'.thread l).ticket = (s'.thread i).ticket → i = l := by
    rintro i l rfl hpc rfl hl ht
    have := h.bounds l hl
    have := h.next_increment (hc.1 hpc)
    grind
  obtain ⟨hj', htj⟩ | ⟨haj, hpcj, hsj⟩ := hs.holdsTicket hj <;>
    rcases hs.holdsTicket hk with ⟨hk', htk⟩ | ⟨hak, hpck, hsk⟩
  · exact h.inj j k hj' hk' (by rw [← htj, hjk, htk])
  · exact (hnew hak hpck hsk hj' hjk).symm
  · exact hnew haj hpcj hsj hk' hjk.symm
  · exact Act.run.inj (haj.symm.trans hak)

theorem inv_actual : 0 ≤ s'.actualTicket ∧ s'.actualTicket ≤ s'.nextTicket + 1 := by
  have h0 := h.actual_nonneg
  have h1 := h.actual_le
  rcases hs.counters h hc with ⟨hn, ha⟩ | ⟨i, rfl, hi, rfl, hn⟩ | ⟨i, rfl, hi, rfl⟩
  · omega
  · rw [State.draw_actualTicket]; omega
  · have := h.bounds i (by grind)
    have := h.turn i (by grind)
    simp only [State.goto_nextTicket]; omega

theorem inv_returned_le : ∀ t ∈ s'.returned, t ≤ s'.nextTicket := by
  have hr := h.returned_le
  have hb := h.bounds
  cases hs with
  | draw hpc => have := h.next_increment (hc.1 hpc); grind
  | _ => grind

theorem inv_fresh (hj : (s'.thread j).pc = .getticketUnlock) :
    (s'.thread j).ticket ∉ s'.returned := by
  have hf := h.fresh
  have hi := h.inj
  have hr := h.returned_le
  cases hs with
  | draw hpc => have := h.next_increment (hc.1 hpc); grind
  | _ => grind

theorem inv_turn (hj : (s'.thread j).pc.OnTurn) : (s'.thread j).ticket = s'.actualTicket := by
  have ht := h.turn
  have hi := h.inj
  cases hs <;> grind

end

section
variable (h : Inv s) (hs : Step M s a s')
include h hs

theorem inv_mutex (j : Fin N) : (s'.thread j).pc.HoldsMutex ↔ s'.mutexTicket = some j := by
  have := h.mutex
  cases hs <;> grind

theorem inv_returned_nodup : s'.returned.Nodup := by
  have hf := h.fresh
  have hn := h.returned_nodup
  cases hs <;> grind

theorem inv_printed_on (hj : (s'.thread j).pc.HasPrinted) :
    (s'.printed.length : Int) = s'.actualTicket + 1 := by
  have hp := h.printed_on
  have hi := h.inj
  have ht := h.turn
  cases hs with
  | print hpc => have := h.printed_length hpc; grind
  | _ => grind

theorem inv_printed_off (hc : NoOverflow s a) :
    (∃ i, (s'.thread i).pc.HasPrinted) ∨ (s'.printed.length : Int) = s'.actualTicket := by
  rcases h.printed_off with ⟨w, hw⟩ | hl
  · rcases hs.hasPrinted hw with hk | ⟨rfl, hpc⟩
    · exact .inl ⟨w, hk⟩
    · have hl := h.printed_on w hw
      have hinc := h.actual_increment (hc.2 hpc)
      cases hs <;> grind
  · have hp := h.printed_on
    cases hs with
    | @print i hpc => exact .inl ⟨i, by grind⟩
    | increment hpc => have := hp _ (.inr hpc); grind
    | _ => exact .inr hl

theorem inv_printed_eq :
    s'.printed.map (·.1) = (List.range s'.printed.length).reverse.map Int.ofNat := by
  have hp := h.printed_eq
  cases hs with
  | print hpc =>
    have hl := h.printed_length hpc
    have ht := h.turn _ (.inl hpc)
    simp [List.range_succ, hp, ht, ← hl]
  | _ => exact hp

end

end Step

theorem Step.inv (h : Inv s) (hc : NoOverflow s a) (hs : Step M s a s') : Inv s' where
  mutex := hs.inv_mutex h
  actual_nonneg := (hs.inv_actual h hc).1
  actual_le := (hs.inv_actual h hc).2
  bounds _ := hs.inv_bounds h hc
  inj _ _ := hs.inv_inj h hc
  turn _ := hs.inv_turn h hc
  fresh _ := hs.inv_fresh h hc
  returned_le := hs.inv_returned_le h hc
  returned_nodup := hs.inv_returned_nodup h
  printed_eq := hs.inv_printed_eq h
  printed_on _ := hs.inv_printed_on h
  printed_off := hs.inv_printed_off h hc

/-- `Inv` holds in every state of a run without overflow. -/
theorem inv_of_reachable (h : (system N M).ReachableUnder NoOverflow s) : Inv s :=
  h.invariant (inv_init N) fun hi hc hs => (step_cases hs).inv hi hc

/-! ## The ticket order -/

/-- No ticket is drawn twice, at most one thread is between the return of `await` and the unlock in
`advance`, and the tickets printed are `0, 1, 2, ...` in this order. -/
structure TicketOrder (s : State N) : Prop where
  distinct : s.returned.Nodup
  exclusive : ∀ i j, (s.thread i).pc.Critical → (s.thread j).pc.Critical → i = j
  ordered : s.printed.reverse.map (·.1) = (List.range s.printed.length).map Int.ofNat

theorem Inv.exclusive (h : Inv s) (hi : (s.thread i).pc.Critical)
    (hj : (s.thread j).pc.Critical) : i = j := by
  have hmi := (h.mutex i).mp (by grind [Pc.Critical])
  have hmj := (h.mutex j).mp (by grind [Pc.Critical])
  exact Option.some.inj (hmi.symm.trans hmj)

theorem Inv.ticketOrder (h : Inv s) : TicketOrder s where
  distinct := h.returned_nodup
  exclusive _ _ := h.exclusive
  ordered := by rw [List.map_reverse, h.printed_eq, ← List.map_reverse, List.reverse_reverse]

/-- The ticket order holds in every state of every run in which no counter overflows. -/
theorem ticketOrder_of_noOverflow (N : Nat) (passThroughs : Int) (s : State N)
    (h : (system N passThroughs).ReachableUnder NoOverflow s) : TicketOrder s :=
  (inv_of_reachable h).ticketOrder

/-- Two threads take turns with the tickets `0` and `1`. -/
theorem ticketOrder_of_noOverflow_turns :
    ∃ s : State 2, s.printed = [(1, 2), (0, 1)] ∧ TicketOrder s := by
  obtain ⟨s, hr, hs⟩ := System.exists_runs (M := (system 2 2).restrict NoOverflow) (s := init 2)
    (l := List.replicate 12 (.run 0) ++ List.replicate 8 (.run 1))
    (p := fun s => s.printed = [(1, 2), (0, 1)]) (by decide)
  exact ⟨s, of_decide_eq_true hs,
    ticketOrder_of_noOverflow 2 2 s (System.Reachable.runs .init hr).of_restrict⟩

/-! ## A run that overflows -/

/-- The value of a C `int` counter after `k` increments from `0`. -/
def wrapped (k : Nat) : Int := (k : Int).bmod (2 ^ 32)

theorem increment_wrapped (k : Nat) : increment (wrapped k) = wrapped (k + 1) :=
  Int.bmod_add_bmod.trans (congrArg (Int.bmod · (2 ^ 32)) (Int.natCast_succ k).symm)

theorem wrapped_ne : wrapped 2147483648 ≠ (2147483648 : Nat) := by decide

theorem wrapped_lt (k : Nat) : wrapped k < 2 ^ 31 :=
  Int.bmod_lt (by decide)

/-- What is written by the only thread is the whole family. -/
theorem update_solo (f : Fin 1 → α) (x : α) : Function.update f 0 x = fun _ => x := by
  funext i
  rw [Subsingleton.elim i 0, Function.update_self]

/-- A thread that is alone draws the ticket `actualTicket`, prints it and comes back. -/
theorem solo_round {x y t : Int} {r : List Int} {p : List (Int × Nat)} (hy : increment x = y)
    (hlt : y < M) :
    (system 1 M).runs ⟨none, x, y, fun _ => ⟨.getticketLock, t⟩, r, p⟩
        (List.replicate 12 (.run 0)) =
      some ⟨none, y, increment y, fun _ => ⟨.getticketLock, y⟩, y :: r, (y, 1) :: p⟩ := by
  simp [List.replicate, System.runs, system, runThread, State.lock, State.unlock, State.goto,
    State.draw, State.broadcast, update_solo, hy, hlt]

/-- With one thread and a limit that no `int` reaches, every round is possible. -/
theorem solo_reachable (k : Nat) :
    ∃ x t r p, increment x = wrapped k ∧ p.length = k ∧
      (system 1 (2 ^ 31)).Reachable
        ⟨none, x, wrapped k, fun _ => ⟨.getticketLock, t⟩, r, p⟩ := by
  induction k with
  | zero => exact ⟨-1, -1, [], [], rfl, rfl, .init⟩
  | succ k ih =>
    obtain ⟨x, t, r, p, hx, hp, hr⟩ := ih
    refine ⟨wrapped k, wrapped k, wrapped k :: r, (wrapped k, 1) :: p, increment_wrapped k,
      by simp [hp], ?_⟩
    rw [← increment_wrapped]
    exact hr.runs (solo_round hx (wrapped_lt k))

/-- A lone thread prints its `k`-th ticket as the `k`-th value of an `int` counter. -/
theorem solo_ordered (k : Nat) :
    ∃ s, (system 1 (2 ^ 31)).Reachable s ∧ (TicketOrder s → wrapped k = k) := by
  obtain ⟨x, t, r, p, hx, hp, hr⟩ := solo_reachable k
  refine ⟨_, hr.runs (solo_round hx (wrapped_lt k)), fun h => ?_⟩
  have ho := h.ordered
  simp only [List.reverse_cons, List.map_append, List.length_cons, List.range_succ, hp] at ho
  have hlast := List.append_inj_right' ho (by simp)
  simpa using hlast

/-- With one thread and `passThroughs = 2 ^ 31`, the ticket drawn after `2 ^ 31 - 1` is negative. -/
theorem ticketOrder_overflow :
    ∃ s, (system 1 (2 ^ 31)).Reachable s ∧ ¬ TicketOrder s := by
  obtain ⟨s, hr, hs⟩ := solo_ordered 2147483648
  exact ⟨s, hr, fun h => wrapped_ne (hs h)⟩

end

end TicketLock
