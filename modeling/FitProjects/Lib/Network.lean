import FitProjects.Lib.MessagePassing
import FitProjects.Lib.System
import Mathlib.Algebra.BigOperators.Ring.Finset
import Mathlib.Data.Nat.Find
import Mathlib.Logic.Function.Basic

/-! # Networks of processes

Processes run in any order. A message that is sent is in transit until it arrives in the mailbox of
its receiver; the messages of one channel arrive in order and are taken in order, those of different
channels in any order.

A `Schedule` has, for each process, the events of one execution, so that on each channel the
deliveries are what one end sends and what the other end receives, each received after it has been
sent. If there is one, then every run follows it (`Schedule.follows`): whatever the order of the
steps, no state is stuck before all processes are done (`Schedule.not_stuck`), no run is longer than
the schedule allows (`Schedule.length_le`), and each process that is done has the result and the
output of the schedule (`Schedule.of_done`). -/

namespace MessagePassing

open History

structure Config (τ μ ω α : Type) where
  proc : Nat → Proc τ μ ω α
  /-- sent, not yet arrived -/
  transit : Channel τ → List μ
  /-- arrived, not yet received -/
  mailbox : Channel τ → List μ
  output : Nat → List ω
  /-- all that has been received -/
  received : Nat → List (Channel τ × μ)
  aborted : Bool

inductive Move (τ : Type) where
  | run (p : Nat)
  | deliver (c : Channel τ)
  | receive (c : Channel τ)

/-- The program has ended. -/
def Proc.IsDone : Proc τ μ ω α → Prop
  | .done _ => True
  | _ => False

section
variable {τ μ ω α : Type} [DecidableEq τ]

def step (numProcs : Nat) (s : Config τ μ ω α) : Move τ → Option (Config τ μ ω α)
  | .run p =>
    if p < numProcs ∧ s.aborted = false then
      match s.proc p with
      | .print o next => some { s with
          proc := Function.update s.proc p next
          output := Function.update s.output p (s.output p ++ [o]) }
      | .send dst tag m next => some { s with
          proc := Function.update s.proc p next
          transit := Function.update s.transit ⟨p, dst, tag⟩ (s.transit ⟨p, dst, tag⟩ ++ [m]) }
      | .abort => some { s with aborted := true }
      | _ => none
    else none
  | .deliver c =>
    if s.aborted = false then
      match s.transit c with
      | m :: rest => some { s with
          transit := Function.update s.transit c rest
          mailbox := Function.update s.mailbox c (s.mailbox c ++ [m]) }
      | [] => none
    else none
  | .receive c =>
    if c.dst < numProcs ∧ s.aborted = false then
      match s.proc c.dst, s.mailbox c with
      | .recv src tag next, m :: rest =>
        if tag = c.tag ∧ (src = some c.src ∨ src = none) then some { s with
          proc := Function.update s.proc c.dst (next m)
          mailbox := Function.update s.mailbox c rest
          received := Function.update s.received c.dst (s.received c.dst ++ [(c, m)]) }
        else none
      | _, _ => none
    else none

/-- `numProcs` processes that run their programs. -/
def network (numProcs : Nat) (prog : Nat → Proc τ μ ω α) : System (Config τ μ ω α) (Move τ) where
  init :=
    { proc := prog
      transit := fun _ => []
      mailbox := fun _ => []
      output := fun _ => []
      received := fun _ => []
      aborted := false }
  step := step numProcs

end

variable {τ μ ω α : Type} [DecidableEq τ] {numProcs : Nat} {prog : Nat → Proc τ μ ω α}
  {s s' : Config τ μ ω α}

/-- What a step can do. -/
inductive Step (numProcs : Nat) (s : Config τ μ ω α) : Config τ μ ω α → Prop
  | print (hp : p < numProcs) (h : s.proc p = .print o next) :
    Step numProcs s { s with
      proc := Function.update s.proc p next
      output := Function.update s.output p (s.output p ++ [o]) }
  | send (hp : p < numProcs) (h : s.proc p = .send dst tag m next) :
    Step numProcs s { s with
      proc := Function.update s.proc p next
      transit := Function.update s.transit ⟨p, dst, tag⟩ (s.transit ⟨p, dst, tag⟩ ++ [m]) }
  | abort (hp : p < numProcs) (h : s.proc p = .abort) : Step numProcs s { s with aborted := true }
  | deliver (h : s.transit c = m :: rest) :
    Step numProcs s { s with
      transit := Function.update s.transit c rest
      mailbox := Function.update s.mailbox c (s.mailbox c ++ [m]) }
  | receive (hp : c.dst < numProcs) (h : s.proc c.dst = .recv src c.tag next)
    (hm : s.mailbox c = m :: rest) (hs : src = some c.src ∨ src = none) :
    Step numProcs s { s with
      proc := Function.update s.proc c.dst (next m)
      mailbox := Function.update s.mailbox c rest
      received := Function.update s.received c.dst (s.received c.dst ++ [(c, m)]) }

theorem Step.of_step {mv : Move τ} (h : step numProcs s mv = some s') : Step numProcs s s' := by
  cases mv with
  | run p =>
    simp only [step] at h
    split_ifs at h with hg
    split at h
    · cases h; exact .print hg.1 ‹_›
    · cases h; exact .send hg.1 ‹_›
    · cases h; exact .abort hg.1 ‹_›
    · cases h
  | deliver c =>
    simp only [step] at h
    split_ifs at h
    split at h
    · cases h; exact .deliver ‹_›
    · cases h
  | receive c =>
    simp only [step] at h
    split_ifs at h with hg
    split at h
    · split_ifs at h with hc
      cases h
      obtain ⟨rfl, hs⟩ := hc
      exact .receive hg.1 ‹_› ‹_› hs
    · cases h

/-- One execution of each process, and the deliveries that connect them. -/
structure Schedule (numProcs : Nat) (prog : Nat → Proc τ μ ω α) where
  stream : Channel τ → List (Delivery μ)
  events : Nat → History τ μ ω
  result : Nat → α
  performs : ∀ p < numProcs, ∃ hi, Performs stream p 0 (prog p) (events p) (result p) hi
  absent : ∀ p, numProcs ≤ p → events p = []
  sends_eq : ∀ c, sends c (events c.src) = (stream c).map fun d => (d.sent, d.body)
  recvs_eq : ∀ c, recvs c (events c.dst) = (stream c).map fun d => (d.received, d.body)

/-- The processes have done the events `past` of the schedule, `future` is left, and the messages
under way are those sent and not received. -/
structure Follows (S : Schedule numProcs prog) (past future : Nat → History τ μ ω)
    (s : Config τ μ ω α) : Prop where
  split : ∀ p, S.events p = past p ++ future p
  performs : ∀ p < numProcs, ∃ lo hi, Performs S.stream p lo (s.proc p) (future p) (S.result p) hi
  messages : ∀ c, (sends c (past c.src)).map Prod.snd =
    (recvs c (past c.dst)).map Prod.snd ++ s.mailbox c ++ s.transit c
  output : ∀ p, s.output p = prints (past p)
  received : ∀ p, s.received p = receipts (past p)
  aborted : s.aborted = false

/-- The channels on which anything is sent. -/
def Schedule.channels (S : Schedule numProcs prog) : Finset (Channel τ) :=
  ((List.range numProcs).flatMap fun p => (S.events p).filterMap fun e =>
    match e.2 with
    | .send c _ => some c
    | _ => none).toFinset

/-- An upper bound for the number of steps of a run. -/
def Schedule.size (S : Schedule numProcs prog) : Nat :=
  ∑ p ∈ Finset.range numProcs, 2 * (S.events p).length

/-- An upper bound for the number of steps that are left: two for each event, one for each message in
transit. -/
def Schedule.left (S : Schedule numProcs prog) (future : Nat → History τ μ ω)
    (s : Config τ μ ω α) : Nat :=
  ∑ p ∈ Finset.range numProcs, 2 * (future p).length + ∑ c ∈ S.channels, (s.transit c).length

/-- The histories, with one more event of `p`. -/
def advance (past : Nat → History τ μ ω) (p : Nat) (e : Nat × Event τ μ ω) :
    Nat → History τ μ ω := Function.update past p (past p ++ [e])

section
variable {τ μ ω β : Type} {past : Nat → History τ μ ω} {e : Nat × Event τ μ ω} {p q : Nat}

theorem update_append {f : Nat → List β} (p q : Nat) (l : List β) :
    Function.update f p (f p ++ l) q = f q ++ if q = p then l else [] := by
  by_cases hq : q = p
  · subst hq; simp
  · simp [hq]

theorem prints_advance : prints (advance past p e q) =
    prints (past q) ++ if q = p then prints [e] else [] := by
  rw [advance, update_append, prints_append]
  split_ifs <;> rfl

theorem receipts_advance : receipts (advance past p e q) =
    receipts (past q) ++ if q = p then receipts [e] else [] := by
  rw [advance, update_append, receipts_append]
  split_ifs <;> rfl

variable [DecidableEq τ]

theorem sends_advance (c : Channel τ) : sends c (advance past p e q) =
    sends c (past q) ++ if q = p then sends c [e] else [] := by
  rw [advance, update_append, sends_append]
  split_ifs <;> rfl

theorem recvs_advance (c : Channel τ) : recvs c (advance past p e q) =
    recvs c (past q) ++ if q = p then recvs c [e] else [] := by
  rw [advance, update_append, recvs_append]
  split_ifs <;> rfl

end

section
variable {S : Schedule numProcs prog} {past future : Nat → History τ μ ω}

/-- The messages on a channel are, in order, those of the schedule. -/
theorem Follows.messages_le (hf : Follows S past future s) (c : Channel τ) :
    (recvs c (past c.dst)).map Prod.snd ++ s.mailbox c ++ s.transit c <+:
      (recvs c (past c.dst)).map Prod.snd ++ (recvs c (future c.dst)).map Prod.snd := by
  have hs := congrArg (List.map Prod.snd) (S.sends_eq c)
  have hr := congrArg (List.map Prod.snd) (S.recvs_eq c)
  rw [hf.split, sends_append] at hs
  rw [hf.split, recvs_append] at hr
  simp only [List.map_append, List.map_map, Function.comp_def] at hs hr
  rw [hr, ← hs, hf.messages]
  exact List.prefix_append _ _

/-! ## One event -/

theorem Follows.split_advance (hf : Follows S past future s) (he : future p = e :: rest) (q : Nat) :
    S.events q = advance past p e q ++ Function.update future p rest q := by
  rw [hf.split]
  by_cases hq : q = p
  · subst hq
    simp [advance, he]
  · simp [advance, hq]

theorem Follows.performs_advance (hf : Follows S past future s)
    (hx : Performs S.stream p lo x rest (S.result p) hi) :
    ∀ q < numProcs, ∃ lo hi, Performs S.stream q lo (Function.update s.proc p x q)
      (Function.update future p rest q) (S.result q) hi := by
  intro q hq
  by_cases hqp : q = p
  · subst hqp
    simpa using ⟨lo, hi, hx⟩
  · simpa [hqp] using hf.performs q hq

theorem Schedule.mem_channels (S : Schedule numProcs prog) {c : Channel τ} (hp : p < numProcs)
    (he : (t, .send c m) ∈ S.events p) : c ∈ S.channels :=
  List.mem_toFinset.mpr (List.mem_flatMap.mpr
    ⟨p, List.mem_range.mpr hp, List.mem_filterMap.mpr ⟨_, he, rfl⟩⟩)

theorem Follows.mem_channels (hf : Follows S past future s) (h : s.transit c ≠ []) :
    c ∈ S.channels := by
  have hne : (sends c (past c.src)).map Prod.snd ≠ [] := by
    rw [hf.messages]
    exact List.append_ne_nil_of_right_ne_nil _ h
  obtain ⟨⟨t, m⟩, hm⟩ := List.exists_mem_of_ne_nil _ (mt List.map_eq_nil_iff.mpr hne)
  have he : (t, .send c m) ∈ S.events c.src := by
    rw [hf.split]
    exact List.mem_append_left _ (mem_sends hm)
  refine S.mem_channels ?_ he
  by_contra hsrc
  rw [S.absent _ (Nat.le_of_not_lt hsrc)] at he
  cases he

theorem sum_length_update {ι β : Type} [DecidableEq ι] {C : Finset ι} {i : ι} (hi : i ∈ C)
    (f : ι → List β) (l : List β) :
    ∑ j ∈ C, (Function.update f i l j).length + (f i).length =
      ∑ j ∈ C, (f j).length + l.length := by
  have hrest : ∑ j ∈ C.erase i, (Function.update f i l j).length =
      ∑ j ∈ C.erase i, (f j).length :=
    Finset.sum_congr rfl fun j hj => by rw [Function.update_of_ne (Finset.ne_of_mem_erase hj)]
  rw [← Finset.add_sum_erase C _ hi, ← Finset.add_sum_erase C (fun j => (f j).length) hi, hrest,
    Function.update_self]
  omega

omit [DecidableEq τ] in
/-- An event that has happened is not left any more. -/
theorem sum_future (hp : p < numProcs) (he : future p = e :: rest) :
    ∑ q ∈ Finset.range numProcs, 2 * (Function.update future p rest q).length + 2 =
      ∑ q ∈ Finset.range numProcs, 2 * (future q).length := by
  have hsum := sum_length_update (Finset.mem_range.mpr hp) future rest
  rw [he, List.length_cons] at hsum
  rw [← Finset.mul_sum, ← Finset.mul_sum]
  omega

/-! ## One step -/

theorem Follows.print (hf : Follows S past future s) (hp : p < numProcs)
    (h : s.proc p = .print o next) (hs : s' = { s with
      proc := Function.update s.proc p next
      output := Function.update s.output p (s.output p ++ [o]) }) :
    ∃ past' future', Follows S past' future' s' ∧ S.left future' s' < S.left future s := by
  subst hs
  obtain ⟨lo, hi, hperf⟩ := hf.performs p hp
  rw [h] at hperf
  generalize he : future p = l at hperf
  cases hperf with
  | @print _ _ _ rest _ _ _ _ hx =>
    refine ⟨_, _, ⟨hf.split_advance he, hf.performs_advance hx, fun c => ?_, fun q => ?_,
      fun q => ?_, hf.aborted⟩, ?_⟩
    · simpa [sends_advance, recvs_advance] using hf.messages c
    · refine (update_append ..).trans ?_
      rw [hf.output, prints_advance]
      rfl
    · simp [receipts_advance, hf.received]
    · have hsum := sum_future hp he
      simp only [Schedule.left]
      omega

theorem Follows.send (hf : Follows S past future s) (hp : p < numProcs)
    (h : s.proc p = .send dst tag m next) (hs : s' = { s with
      proc := Function.update s.proc p next
      transit := Function.update s.transit ⟨p, dst, tag⟩ (s.transit ⟨p, dst, tag⟩ ++ [m]) }) :
    ∃ past' future', Follows S past' future' s' ∧ S.left future' s' < S.left future s := by
  subst hs
  obtain ⟨lo, hi, hperf⟩ := hf.performs p hp
  rw [h] at hperf
  generalize he : future p = l at hperf
  cases hperf with
  | send _ hx =>
    refine ⟨_, _, ⟨hf.split_advance he, hf.performs_advance hx, fun c => ?_, fun q => ?_,
      fun q => ?_, hf.aborted⟩, ?_⟩
    · have hm := hf.messages c
      by_cases hc : (⟨p, dst, tag⟩ : Channel τ) = c
      · subst hc
        simp [sends_advance, recvs_advance, hm]
      · simp [sends_advance, recvs_advance, hm, hc, Ne.symm hc]
    · simp [prints_advance, hf.output]
    · simp [receipts_advance, hf.received]
    · have hmem : (⟨p, dst, tag⟩ : Channel τ) ∈ S.channels := by
        have hevents := hf.split p
        rw [he] at hevents
        exact S.mem_channels hp (hevents ▸ List.mem_append_right _ List.mem_cons_self)
      have hsum := sum_future hp he
      have htransit := sum_length_update hmem s.transit (s.transit ⟨p, dst, tag⟩ ++ [m])
      rw [List.length_append, List.length_singleton] at htransit
      simp only [Schedule.left]
      omega

theorem Follows.deliver (hf : Follows S past future s) (h : s.transit c = m :: rest)
    (hs : s' = { s with
      transit := Function.update s.transit c rest
      mailbox := Function.update s.mailbox c (s.mailbox c ++ [m]) }) :
    Follows S past future s' ∧ S.left future s' < S.left future s := by
  subst hs
  refine ⟨⟨hf.split, hf.performs, fun c' => ?_, hf.output, hf.received, hf.aborted⟩, ?_⟩
  · have hm := hf.messages c'
    by_cases hc : c' = c
    · subst hc
      simp [hm, h]
    · simp [hm, hc]
  · have hmem : c ∈ S.channels := hf.mem_channels (by simp [h])
    have htransit := sum_length_update hmem s.transit rest
    rw [h, List.length_cons] at htransit
    simp only [Schedule.left]
    omega

/-- The message that a process takes is the one that the schedule has for it. -/
theorem Follows.receive (hf : Follows S past future s) (hp : c.dst < numProcs)
    (h : s.proc c.dst = .recv src c.tag next) (hm : s.mailbox c = m :: rest)
    (hs : src = some c.src ∨ src = none) (hs' : s' = { s with
      proc := Function.update s.proc c.dst (next m)
      mailbox := Function.update s.mailbox c rest
      received := Function.update s.received c.dst (s.received c.dst ++ [(c, m)]) }) :
    ∃ past' future', Follows S past' future' s' ∧ S.left future' s' < S.left future s := by
  subst hs'
  obtain ⟨p, dst, tag⟩ := c
  obtain ⟨lo, hi, hperf⟩ := hf.performs dst hp
  simp only at h hp
  rw [h] at hperf
  generalize he : future dst = l at hperf
  cases hperf with
  | @recv _ t _ p' _ _ l _ _ m' ht hs' hx =>
    -- No other channel with this tag has messages, so this is the channel of the schedule.
    have hpp : p = p' := by
      by_contra hne
      have hnil : S.stream ⟨p, dst, tag⟩ = [] := by
        rcases hs' with rfl | ⟨-, hs'⟩
        · simp_all
        · exact hs' p hne
      have hmsg := hf.messages_le ⟨p, dst, tag⟩
      have hr := S.recvs_eq ⟨p, dst, tag⟩
      rw [hf.split, recvs_append, hnil, List.map_nil, List.append_eq_nil_iff] at hr
      simp [hr.1, hr.2, hm] at hmsg
    subst hpp
    have hmm : m = m' := by
      have hmsg := hf.messages_le ⟨p, dst, tag⟩
      rw [he, hm, List.append_assoc, List.prefix_append_right_inj] at hmsg
      simp only [recvs_recv, if_true, List.cons_append, List.nil_append, List.map_cons,
        List.cons_prefix_cons] at hmsg
      exact hmsg.1
    subst hmm
    refine ⟨_, _, ⟨hf.split_advance he, hf.performs_advance hx, fun c' => ?_, fun q => ?_,
      fun q => ?_, hf.aborted⟩, ?_⟩
    · have hmsg := hf.messages c'
      by_cases hc : (⟨p, dst, tag⟩ : Channel τ) = c'
      · subst hc
        simp [sends_advance, recvs_advance, hmsg, hm]
      · simp [sends_advance, recvs_advance, hmsg, hc, Ne.symm hc]
    · simp [prints_advance, hf.output]
    · refine (update_append ..).trans ?_
      rw [hf.received, receipts_advance]
      rfl
    · have hsum := sum_future hp he
      simp only [Schedule.left]
      omega

theorem Follows.init (S : Schedule numProcs prog) :
    Follows S (fun _ => []) S.events (network numProcs prog).init where
  split _ := rfl
  performs p hp := ⟨0, S.performs p hp⟩
  messages _ := rfl
  output _ := rfl
  received _ := rfl
  aborted := rfl

/-- A step follows the schedule, and less is left of it. -/
theorem Follows.step (hf : Follows S past future s) (h : Step numProcs s s') :
    ∃ past' future', Follows S past' future' s' ∧ S.left future' s' < S.left future s := by
  cases h with
  | print hp h => exact hf.print hp h rfl
  | send hp h => exact hf.send hp h rfl
  | abort hp h =>
    obtain ⟨lo, hi, hperf⟩ := hf.performs _ hp
    rw [h] at hperf
    cases hperf
  | deliver h => exact ⟨_, _, hf.deliver h rfl⟩
  | receive hp h hm hs => exact hf.receive hp h hm hs rfl

/-- Every run follows the schedule. -/
theorem Schedule.follows (S : Schedule numProcs prog) (h : (network numProcs prog).Reachable s) :
    ∃ past future, Follows S past future s := by
  refine System.Reachable.invariant (I := fun s => ∃ past future, Follows S past future s)
    ⟨_, _, .init S⟩ (fun hi hs => ?_) h
  obtain ⟨past, future, hf⟩ := hi
  obtain ⟨past', future', hf', -⟩ := hf.step (.of_step hs)
  exact ⟨past', future', hf'⟩

/-! ## Termination -/

theorem Follows.length_le (hf : Follows S past future s) {l : List (Move τ)}
    (h : (network numProcs prog).runs s l = some s') : l.length ≤ S.left future s := by
  induction l generalizing past future s with
  | nil => exact Nat.zero_le _
  | cons mv l ih =>
    obtain ⟨t, ht, h⟩ := Option.bind_eq_some_iff.mp h
    obtain ⟨past', future', hf', hlt⟩ := hf.step (.of_step ht)
    have hle := ih hf' h
    rw [List.length_cons]
    omega

/-- No run is longer than the schedule allows. -/
theorem Schedule.length_le (S : Schedule numProcs prog) {l : List (Move τ)}
    (h : (network numProcs prog).runs (network numProcs prog).init l = some s') :
    l.length ≤ S.size := by
  have hleft : S.left S.events (network numProcs prog).init = S.size := by
    rw [Schedule.left, Schedule.size, Nat.add_eq_left]
    exact Finset.sum_eq_zero fun _ _ => rfl
  exact hleft ▸ (Follows.init S).length_le h

/-! ## Progress -/

theorem Follows.future_of_not_done (hf : Follows S past future s) (hp : p < numProcs)
    (h : ¬(s.proc p).IsDone) : future p ≠ [] := by
  obtain ⟨lo, hi, hperf⟩ := hf.performs p hp
  intro hnil
  rw [hnil] at hperf
  generalize s.proc p = x at hperf h
  cases hperf
  exact h trivial

/-- Before the earliest event that is left all others have happened. -/
theorem Follows.exists_earliest (hf : Follows S past future s) (hp : p < numProcs)
    (h : future p ≠ []) :
    ∃ p < numProcs, ∃ e l, future p = e :: l ∧ ∀ q, ∀ f ∈ future q, e.1 ≤ f.1 := by
  classical
  have hex : ∃ t, ∃ p < numProcs, ∃ e l, future p = e :: l ∧ e.1 = t := by
    obtain ⟨e, l, he⟩ := List.exists_cons_of_ne_nil h
    exact ⟨e.1, p, hp, e, l, he, rfl⟩
  obtain ⟨p, hp, e, l, he, ht⟩ := Nat.find_spec hex
  refine ⟨p, hp, e, l, he, fun q f hf' => ?_⟩
  have hq : q < numProcs := by
    by_contra hq
    have habs := S.absent q (Nat.le_of_not_lt hq)
    rw [hf.split, List.append_eq_nil_iff] at habs
    simp [habs.2] at hf'
  obtain ⟨e', l', he'⟩ := List.exists_cons_of_ne_nil (List.ne_nil_of_mem hf')
  have hmin : e.1 ≤ e'.1 := ht ▸ Nat.find_min' hex ⟨q, hq, e', l', he', rfl⟩
  obtain ⟨lo, hi, hperf⟩ := hf.performs q hq
  rw [he'] at hf' hperf
  exact Nat.le_trans hmin (hperf.head_le f hf')

/-- A message whose reception is the earliest event left is under way. -/
theorem Follows.messages_ne_nil (hf : Follows S past future s) {c : Channel τ}
    (he : future c.dst = (t, .recv c m) :: l) (hmin : ∀ f ∈ future c.src, t ≤ f.1) :
    s.mailbox c ++ s.transit c ≠ [] := by
  let k := (recvs c (past c.dst)).length
  have hrecv : ((S.stream c).map fun d => (d.received, d.body))[k]? = some (t, m) := by
    rw [← S.recvs_eq, hf.split, recvs_append, he, recvs_recv, if_pos rfl]
    simp [k]
  obtain ⟨d, hd, hdt⟩ := by simpa using hrecv
  have hsend : (sends c (past c.src) ++ sends c (future c.src))[k]? = some (d.sent, d.body) := by
    rw [← sends_append, ← hf.split, S.sends_eq]
    simp [hd]
  intro hnil
  have hlen := congrArg List.length (hf.messages c)
  rw [List.append_assoc, hnil, List.append_nil, List.length_map, List.length_map] at hlen
  rw [List.getElem?_append_right (Nat.le_of_eq hlen)] at hsend
  have hsent := hmin _ (mem_sends (List.mem_of_getElem? hsend))
  have hlt := d.sent_lt
  simp only at hsent
  omega

/-- No state is stuck before all processes are done. -/
theorem Schedule.not_stuck (S : Schedule numProcs prog) (h : (network numProcs prog).Reachable s) :
    (∀ p < numProcs, (s.proc p).IsDone) ∨ ∃ mv s', (network numProcs prog).step s mv = some s' := by
  obtain ⟨past, future, hf⟩ := S.follows h
  refine or_iff_not_imp_left.mpr fun hnot => ?_
  obtain ⟨p, hp, hnd⟩ := by simpa using hnot
  obtain ⟨p, hp, e, l, he, hmin⟩ := hf.exists_earliest hp (hf.future_of_not_done hp hnd)
  obtain ⟨lo, hi, hperf⟩ := hf.performs p hp
  rw [he] at hperf
  generalize hx : s.proc p = x at hperf
  cases hperf with
  | print => exact ⟨.run p, by simp [network, MessagePassing.step, hp, hf.aborted, hx]⟩
  | send => exact ⟨.run p, by simp [network, MessagePassing.step, hp, hf.aborted, hx]⟩
  | @recv _ t _ src tag _ _ _ _ m ht hs _ =>
    have hne := hf.messages_ne_nil (c := ⟨src, p, tag⟩) he (hmin src)
    cases hm : s.mailbox ⟨src, p, tag⟩ with
    | cons m' rest =>
      refine ⟨.receive ⟨src, p, tag⟩, ?_⟩
      have hs' := hs.imp_right And.left
      simp [network, MessagePassing.step, hp, hf.aborted, hx, hm, hs']
    | nil =>
      obtain ⟨m', rest, hm'⟩ := List.exists_cons_of_ne_nil (by simpa [hm] using hne)
      exact ⟨.deliver ⟨src, p, tag⟩, by simp [network, MessagePassing.step, hf.aborted, hm']⟩

/-- Every run goes on until all processes are done. -/
theorem Schedule.completes (S : Schedule numProcs prog)
    (h : (network numProcs prog).Reachable s) :
    ∃ l s', (network numProcs prog).runs s l = some s' ∧ ∀ p < numProcs, (s'.proc p).IsDone := by
  obtain ⟨past, future, hf⟩ := S.follows h
  generalize hn : S.left future s = n
  induction n using Nat.strong_induction_on generalizing s past future with
  | _ n ih =>
    rcases S.not_stuck h with hdone | ⟨mv, t, ht⟩
    · exact ⟨[], s, rfl, hdone⟩
    · obtain ⟨past', future', hf', hlt⟩ := hf.step (.of_step ht)
      obtain ⟨l, s', hs', hdone⟩ := ih _ (hn ▸ hlt) (h.step ht) _ _ hf' rfl
      exact ⟨mv :: l, s', Option.bind_eq_some_iff.mpr ⟨t, ht, hs'⟩, hdone⟩

/-- A process that is done has done what the schedule has for it. -/
theorem Schedule.of_done (S : Schedule numProcs prog) (h : (network numProcs prog).Reachable s)
    (hp : p < numProcs) (hd : (s.proc p).IsDone) :
    s.proc p = .done (S.result p) ∧ s.output p = prints (S.events p) ∧
      s.received p = receipts (S.events p) := by
  obtain ⟨past, future, hf⟩ := S.follows h
  obtain ⟨lo, hi, hperf⟩ := hf.performs p hp
  generalize hx : s.proc p = x at hperf hd
  generalize he : future p = l at hperf
  cases hperf with
  | done =>
    rw [hf.output, hf.received, hf.split, he, List.append_nil]
    exact ⟨rfl, rfl, rfl⟩
  | print | send | recv => cases hd

end

end MessagePassing
