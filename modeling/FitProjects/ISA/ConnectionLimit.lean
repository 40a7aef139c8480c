import FitProjects.Lib.Admission
import FitProjects.ISA.Server

/-! # The connection limit of the honeypot servers

A run of a server is an admission of clients under the limit (`Follows`): a connection waits from
`accept` to `incConnections`, is then admitted or refused, and leaves with its decrement. The
counter is the number of those admitted and refused (`Counted`); it does not overflow because the
threads that can run are fewer. -/

namespace Honeypot

/-! ### Where the connections are -/

/-- The connection, as long as it has to be taken off the count. -/
def Session.owed (x : Session) : List Nat :=
  if .decConnections ∈ x.rest then [x.conn] else []

namespace MainPc

def waiting : MainPc → List Nat
  | inc conn => [conn]
  | _ => []

def spawning : MainPc → List Nat
  | spawn conn => [conn]
  | _ => []

def refusing : MainPc → List Nat
  | refuse x => x.owed
  | _ => []

end MainPc

namespace State

/-- Accepted, and not counted yet. -/
def waiting (s : State) : List Nat := s.main.waiting

/-- Admitted, and not taken off the count yet. -/
def admitted (s : State) : List Nat := s.main.spawning ++ s.threads.flatMap Session.owed

/-- Refused, and not taken off the count yet. -/
def refused (s : State) : List Nat := s.main.refusing

/-- The admission of clients that a server performs. -/
def admission (s : State) : Admission := ⟨s.accepted, s.waiting, s.admitted, s.refused, s.log⟩

section
variable {s : State}

@[simp] theorem perform_main : (s.perform a conn).main = s.main := by
  unfold perform; split <;> rfl

@[simp] theorem perform_threads : (s.perform a conn).threads = s.threads := by
  unfold perform; split <;> rfl

@[simp] theorem perform_accepted : (s.perform a conn).accepted = s.accepted := by
  unfold perform; split <;> rfl

theorem perform_connections : (s.perform a conn).connections =
    if a = .decConnections then Honeypot.decConnections s.connections else s.connections := by
  unfold perform; split <;> rfl

theorem perform_log : (s.perform a conn).log =
    s.log ++ if a = .decConnections then [conn] else [] := by
  unfold perform; split <;> simp

end

end State

theorem Session.owed_length_le (x : Session) : x.owed.length ≤ 1 := by
  rw [owed]
  split <;> simp

/-- A session owes nothing after the decrement. -/
theorem Session.owed_eq_nil {x x' : Session} (h : x.next = some (.decConnections, x')) :
    x'.owed = [] := by
  obtain ⟨conn, rest, honce⟩ := x
  cases rest with
  | nil => cases h
  | cons b rest =>
    obtain ⟨rfl, rfl⟩ := Prod.mk.injEq .. ▸ Option.some.inj h
    refine if_neg fun hmem => ?_
    have hpos : 0 < rest.count .decConnections := List.count_pos_iff.mpr hmem
    rw [List.count_cons_self] at honce
    omega

/-- A session owes its connection until it carries out the decrement. -/
theorem Session.next_owed {x x' : Session} (h : x.next = some (a, x')) :
    x'.conn = x.conn ∧ x.owed = (if a = .decConnections then [x.conn] else []) ++ x'.owed := by
  obtain ⟨conn, rest, honce⟩ := x
  cases rest with
  | nil => cases h
  | cons b rest =>
    obtain ⟨rfl, rfl⟩ := Prod.mk.injEq .. ▸ Option.some.inj h
    refine ⟨rfl, ?_⟩
    by_cases hb : b = .decConnections
    · subst hb
      rw [if_pos rfl, owed_eq_nil (x := ⟨conn, .decConnections :: rest, honce⟩) rfl]
      simp [owed]
    · simp [owed, hb, Ne.symm hb]

theorem owed_le_running (threads : List Session) :
    (threads.flatMap Session.owed).length ≤ running threads := by
  induction threads with
  | nil => exact Nat.le_refl _
  | cons x l ih =>
    rw [List.flatMap_cons, List.length_append, running, List.filter_cons]
    split
    next => rw [List.length_cons]; have := x.owed_length_le; rw [running] at ih; omega
    next hx =>
      have hrest : x.rest = [] := by simpa using hx
      rw [running] at ih
      simpa [Session.owed, hrest] using ih

/-- `s'` is reached from `s` by steps of an admission under the limit. -/
def Follows (lim : Limits) (s s' : State) : Prop :=
  Relation.ReflTransGen (Admission.Step lim.maxClients) s.admission s'.admission

/-- The counter and the threads of a reachable state. -/
structure Counted (lim : Limits) (s : State) : Prop where
  connections : s.connections = s.admitted.length + s.refused.length
  threads : running s.threads ≤ lim.threads

theorem MainPc.length_le (pc : MainPc) : pc.spawning.length + pc.refusing.length ≤ 1 := by
  cases pc with
  | refuse x => exact (Nat.zero_add _).trans_le x.owed_length_le
  | _ => simp [spawning, refusing]

theorem Counted.connections_lt (h : Counted lim s) : s.connections < 2 ^ 32 := by
  have howed := owed_le_running s.threads
  have hrunning := h.threads
  have hlim := lim.threads_lt
  have hpc := s.main.length_le
  rw [h.connections, State.admitted, State.refused, List.length_append]
  omega

/-- A decrement of a positive counter. -/
theorem decConnections_eq (hpos : 0 < n) (hlt : n < 2 ^ 32) : decConnections n = n - 1 := by
  rw [decConnections]
  omega

/-- What a client thread changes. -/
theorem clientStep_cases (h : clientStep s i = some s') :
    ∃ l x l' a x', s.threads = l ++ x :: l' ∧ l.length = i ∧ x.next = some (a, x') ∧
      s' = State.perform { s with threads := l ++ x' :: l' } a x.conn := by
  unfold clientStep at h
  split at h
  · cases h
  next x hx =>
    split at h
    · cases h
    next a x' hnext =>
      obtain ⟨hi, rfl⟩ := List.getElem?_eq_some_iff.mp hx
      have hset : ∃ l l', s.threads = l ++ s.threads[i] :: l' ∧ l.length = i ∧
          s.threads.set i x' = l ++ x' :: l' := List.exists_of_set hi
      obtain ⟨l, l', hl, hlen, hset⟩ := hset
      exact ⟨l, _, l', a, x', hl, hlen, hnext, by rw [← Option.some.inj h, hset]⟩

/-- A step that moves no connection. -/
theorem Counted.stay (h : Counted lim s) (haccepted : s'.accepted = s.accepted)
    (hwaiting : s'.waiting = s.waiting) (hadmitted : s'.admitted.Perm s.admitted)
    (hrefused : s'.refused = s.refused) (hlog : s'.log = s.log)
    (hconnections : s'.connections = s.connections)
    (hrunning : running s'.threads ≤ lim.threads) :
    Counted lim s' ∧ Follows lim s s' := by
  have hadmission : s'.admission = s.admission := by
    simp only [State.admission, haccepted, hwaiting, Multiset.coe_eq_coe.mpr hadmitted, hrefused,
      hlog]
  refine ⟨⟨by rw [hconnections, h.connections, hadmitted.length_eq, hrefused], hrunning⟩, ?_⟩
  rw [Follows, hadmission]

/-- A step that counts a connection and admits it. -/
theorem Counted.letIn (h : Counted lim s) (haccepted : s'.accepted = s.accepted)
    (hwaiting : s.waiting = conn :: s'.waiting) (hadmitted : s'.admitted = conn :: s.admitted)
    (hrefused : s'.refused = s.refused) (hlog : s'.log = s.log)
    (hconnections : s'.connections = s.connections + 1) (hle : s'.connections ≤ lim.maxClients)
    (hrunning : running s'.threads ≤ lim.threads) :
    Counted lim s' ∧ Follows lim s s' := by
  have hcount := h.connections
  have hadmission : s'.admission =
      { s.admission with waiting := s'.waiting, admitted := conn ::ₘ s.admitted } := by
    simp [State.admission, haccepted, hadmitted, hrefused, hlog]
  refine ⟨⟨?_, hrunning⟩, .single ?_⟩
  · rw [hadmitted, hrefused, List.length_cons]
    omega
  · rw [hadmission]
    refine .letIn (congrArg _ hwaiting) ?_
    simp only [State.admission, Multiset.coe_card]
    omega

/-- A step that counts a connection and refuses it. -/
theorem Counted.refuse (h : Counted lim s) (haccepted : s'.accepted = s.accepted)
    (hwaiting : s.waiting = conn :: s'.waiting) (hadmitted : s'.admitted = s.admitted)
    (hrefused : s'.refused = conn :: s.refused) (hlog : s'.log = s.log)
    (hconnections : s'.connections = s.connections + 1) (hlt : lim.maxClients < s'.connections)
    (hrunning : running s'.threads ≤ lim.threads) :
    Counted lim s' ∧ Follows lim s s' := by
  have hcount := h.connections
  have hadmission : s'.admission =
      { s.admission with waiting := s'.waiting, refused := conn ::ₘ s.refused } := by
    simp [State.admission, haccepted, hadmitted, hrefused, hlog]
  refine ⟨⟨?_, hrunning⟩, .single ?_⟩
  · rw [hadmitted, hrefused, List.length_cons]
    omega
  · rw [hadmission]
    refine .refuse (congrArg _ hwaiting) ?_
    simp only [State.admission, Multiset.coe_card]
    omega

/-- A step that takes an admitted connection off the count. -/
theorem Counted.leave (h : Counted lim s) (haccepted : s'.accepted = s.accepted)
    (hwaiting : s'.waiting = s.waiting) (hadmitted : s.admitted.Perm (conn :: s'.admitted))
    (hrefused : s'.refused = s.refused) (hlog : s'.log = s.log ++ [conn])
    (hconnections : s'.connections = decConnections s.connections)
    (hrunning : running s'.threads ≤ lim.threads) :
    Counted lim s' ∧ Follows lim s s' := by
  have hlen : s.admitted.length = s'.admitted.length + 1 := hadmitted.length_eq
  have hcount := h.connections
  have hadmission : s'.admission =
      { s.admission with admitted := s'.admitted, gone := conn ::ₘ ↑s.log } := by
    simp [State.admission, haccepted, hwaiting, hrefused, hlog, Multiset.coe_eq_coe]
  refine ⟨⟨?_, hrunning⟩, .single ?_⟩
  · rw [hconnections, decConnections_eq (by omega) h.connections_lt, hrefused]
    omega
  · rw [hadmission]
    exact .leave (Multiset.coe_eq_coe.mpr hadmitted)

/-- A step that takes a refused connection off the count. -/
theorem Counted.turnAway (h : Counted lim s) (haccepted : s'.accepted = s.accepted)
    (hwaiting : s'.waiting = s.waiting) (hadmitted : s'.admitted = s.admitted)
    (hrefused : s.refused = conn :: s'.refused) (hlog : s'.log = s.log ++ [conn])
    (hconnections : s'.connections = decConnections s.connections)
    (hrunning : running s'.threads ≤ lim.threads) :
    Counted lim s' ∧ Follows lim s s' := by
  have hlen : s.refused.length = s'.refused.length + 1 := by rw [hrefused, List.length_cons]
  have hcount := h.connections
  have hadmission : s'.admission =
      { s.admission with refused := s'.refused, gone := conn ::ₘ ↑s.log } := by
    simp [State.admission, haccepted, hwaiting, hadmitted, hlog, Multiset.coe_eq_coe]
  refine ⟨⟨?_, hrunning⟩, .single ?_⟩
  · rw [hconnections, decConnections_eq (by omega) h.connections_lt, hadmitted]
    omega
  · rw [hadmission]
    exact .turnAway (congrArg _ hrefused)

theorem running_append : running (l ++ l') = running l + running l' := by
  simp [running]

theorem running_cons_le {x x' : Session} (h : x.next = some (a, x')) :
    running (x' :: l) ≤ running (x :: l) := by
  have hx : x.rest ≠ [] := by
    obtain ⟨conn, rest, honce⟩ := x
    rintro rfl
    cases h
  have hle : running [x'] ≤ 1 := List.length_filter_le ..
  have hone : running [x] = 1 := by simp [running, hx]
  have happ : running ([x] ++ l) = running [x] + running l := running_append
  have happ' : running ([x'] ++ l) = running [x'] + running l := running_append
  rw [List.singleton_append] at happ happ'
  omega

/-- An action of a thread changes the admission only if it is the decrement; then a client
leaves. -/
theorem clientStep_follows (h : Counted lim s) (hs : clientStep s i = some s') :
    Counted lim s' ∧ Follows lim s s' := by
  obtain ⟨l, x, l', a, x', hthreads, -, hnext, hs'⟩ := clientStep_cases hs
  obtain ⟨hconn, howed⟩ := Session.next_owed hnext
  have hmain : s'.main = s.main := by rw [hs', State.perform_main]
  have hthreads' : s'.threads = l ++ x' :: l' := by rw [hs', State.perform_threads]
  have haccepted : s'.accepted = s.accepted := by rw [hs', State.perform_accepted]
  have hconnections := congrArg State.connections hs'
  have hlog := congrArg State.log hs'
  rw [State.perform_connections] at hconnections
  rw [State.perform_log] at hlog
  have hrun : running s'.threads ≤ lim.threads := by
    have := running_cons_le (l := l') hnext
    have hrunning := h.threads
    rw [hthreads, running_append] at hrunning
    rw [hthreads', running_append]
    omega
  have hwaiting : s'.waiting = s.waiting := by rw [State.waiting, hmain, State.waiting]
  have hrefused : s'.refused = s.refused := by rw [State.refused, hmain, State.refused]
  by_cases ha : a = .decConnections
  · rw [if_pos ha] at hconnections hlog howed
    have hx' : x'.owed = [] := Session.owed_eq_nil (ha ▸ hnext)
    refine h.leave haccepted hwaiting ?_ hrefused hlog hconnections hrun
    simp only [State.admitted, hmain, hthreads, hthreads', List.flatMap_append, List.flatMap_cons,
      howed, hx', List.append_nil, List.nil_append, List.singleton_append, ← List.append_assoc]
    exact List.perm_middle
  · rw [if_neg ha] at hconnections hlog howed
    rw [List.append_nil] at hlog
    refine h.stay haccepted hwaiting (.of_eq ?_) hrefused hlog hconnections hrun
    simp [State.admitted, hmain, hthreads, hthreads', howed]

/-- A step between two points at which the accepting thread holds no connection. -/
theorem Counted.goto (h : Counted lim s) (hs : s.main = pc)
    (hpc : pc.waiting = [] ∧ pc.spawning = [] ∧ pc.refusing = [])
    (hpc' : pc'.waiting = [] ∧ pc'.spawning = [] ∧ pc'.refusing = []) :
    Counted lim { s with main := pc' } ∧ Follows lim s { s with main := pc' } := by
  refine h.stay rfl ?_ (.of_eq ?_) ?_ rfl rfl h.threads
  · rw [State.waiting, State.waiting, hs, hpc.1, hpc'.1]
  · rw [State.admitted, State.admitted, hs, hpc.2.1, hpc'.2.1]
  · rw [State.refused, State.refused, hs, hpc.2.2, hpc'.2.2]

/-- A connection is accepted. -/
theorem Counted.accept (h : Counted lim s) (hs : s.main = .accept)
    (hs' : s' = { s with main := .inc s.accepted, accepted := s.accepted + 1 }) :
    Counted lim s' ∧ Follows lim s s' := by
  subst hs'
  have hcount := h.connections
  simp only [State.admitted, State.refused, hs] at hcount
  have hadmission : State.admission { s with main := .inc s.accepted, accepted := s.accepted + 1 } =
      { s.admission with
        arrived := s.accepted + 1, waiting := s.accepted ::ₘ s.admission.waiting } := by
    simp [State.admission, State.waiting, State.admitted, State.refused, hs, MainPc.waiting,
      MainPc.spawning, MainPc.refusing]
  exact ⟨⟨hcount, h.threads⟩, .single (hadmission ▸ .arrive)⟩

/-- The count of an accepted connection decides whether it is admitted. -/
theorem Counted.inc (h : Counted lim s) (hs : s.main = .inc conn)
    (hs' : mainStep code lim s o = some s') : Counted lim s' ∧ Follows lim s s' := by
  have howed := owed_le_running s.threads
  have hrunning := h.threads
  have hlim := lim.threads_lt
  have hcount := h.connections
  have hwaiting : s.waiting = [conn] := by rw [State.waiting, hs]; rfl
  have hadmitted : s.admitted = s.threads.flatMap Session.owed := by
    rw [State.admitted, hs]; rfl
  have hrefused : s.refused = [] := by rw [State.refused, hs]; rfl
  rw [hadmitted, hrefused, List.length_nil] at hcount
  have hn : (s.connections + 1) % 2 ^ 32 = s.connections + 1 := Nat.mod_eq_of_lt (by omega)
  simp only [mainStep, hs, incConnections, hn, Option.some.injEq, decide_eq_true_eq] at hs'
  split at hs'
  next hfull =>
    have hmem : .decConnections ∈ code.refused :=
      List.count_pos_iff.mp (by rw [code.refused_once]; exact Nat.one_pos)
    subst hs'
    refine h.refuse rfl hwaiting ?_ ?_ rfl rfl hfull hrunning
    · rw [hadmitted]
      rfl
    · rw [hrefused]
      exact if_pos hmem
  next hfull =>
    subst hs'
    refine h.letIn rfl hwaiting ?_ ?_ rfl rfl (Nat.not_lt.mp hfull) hrunning
    · rw [hadmitted]
      rfl
    · rw [hrefused]
      rfl

/-- An action of the accepting thread for a refused connection. -/
theorem Counted.refusing (h : Counted lim s) (hs : s.main = .refuse x)
    (hs' : mainStep code lim s o = some s') : Counted lim s' ∧ Follows lim s s' := by
  simp only [mainStep, hs] at hs'
  split at hs'
  next hnext =>
    have hx : x.owed = [] := by
      obtain ⟨conn, rest, honce⟩ := x
      cases rest with
      | nil => rfl
      | cons a rest => cases hnext
    obtain rfl := Option.some.inj hs'
    exact h.goto hs ⟨rfl, rfl, hx⟩ ⟨rfl, rfl, rfl⟩
  next a x' hnext =>
    obtain ⟨hconn, howed⟩ := Session.next_owed hnext
    have hs' := Option.some.inj hs'
    have hmain : s'.main = .refuse x' := by rw [← hs', State.perform_main]
    have hthreads : s'.threads = s.threads := by rw [← hs', State.perform_threads]
    have haccepted : s'.accepted = s.accepted := by rw [← hs', State.perform_accepted]
    have hconnections := congrArg State.connections hs'.symm
    have hlog := congrArg State.log hs'.symm
    rw [State.perform_connections] at hconnections
    rw [State.perform_log] at hlog
    have hwaiting : s'.waiting = s.waiting := by
      rw [State.waiting, State.waiting, hmain, hs]; rfl
    have hadmitted : s'.admitted = s.admitted := by
      rw [State.admitted, State.admitted, hmain, hs, hthreads]; rfl
    have hrefused : s.refused = x.owed := by rw [State.refused, hs]; rfl
    have hrefused' : s'.refused = x'.owed := by rw [State.refused, hmain]; rfl
    by_cases ha : a = .decConnections
    · rw [if_pos ha] at hconnections hlog howed
      refine h.turnAway haccepted hwaiting hadmitted ?_ hlog hconnections (hthreads ▸ h.threads)
      rw [hrefused, hrefused', howed, List.singleton_append]
    · rw [if_neg ha] at hconnections hlog howed
      rw [List.append_nil] at hlog
      refine h.stay haccepted hwaiting (.of_eq hadmitted) ?_ hlog hconnections
        (hthreads ▸ h.threads)
      rw [hrefused, hrefused', howed, List.nil_append]

/-- A client thread is started for an admitted connection. -/
theorem Counted.spawn (h : Counted lim s) (hs : s.main = .spawn conn)
    (hs' : mainStep code lim s o = some s') : Counted lim s' ∧ Follows lim s s' := by
  simp only [mainStep, hs, Option.ite_none_right_eq_some, Option.some.injEq] at hs'
  obtain ⟨hlt, rfl⟩ := hs'
  have hmem : .decConnections ∈ code.served :=
    List.count_pos_iff.mp (by rw [code.served_once]; exact Nat.one_pos)
  refine h.stay rfl ?_ ?_ ?_ rfl rfl ?_
  · rw [State.waiting, State.waiting, hs]; rfl
  · rw [State.admitted, State.admitted, hs, List.flatMap_append, List.flatMap_cons,
      List.flatMap_nil, List.append_nil, Session.owed, if_pos hmem]
    exact List.perm_append_singleton conn _
  · rw [State.refused, State.refused, hs]; rfl
  · have hone : running [⟨conn, code.served, Nat.le_of_eq code.served_once⟩] ≤ 1 :=
      List.length_filter_le ..
    rw [running_append]
    omega

/-- A step of the accepting thread. -/
theorem mainStep_follows (h : Counted lim s) (hs : mainStep code lim s o = some s') :
    Counted lim s' ∧ Follows lim s s' := by
  cases hm : s.main with
  | loop =>
    simp only [mainStep, hm, Option.some.injEq] at hs
    subst hs
    refine h.goto hm ⟨rfl, rfl, rfl⟩ ?_
    split <;> exact ⟨rfl, rfl, rfl⟩
  | select =>
    simp only [mainStep, hm] at hs
    cases o with
    | error => obtain rfl := Option.some.inj hs; exact h.goto hm ⟨rfl, rfl, rfl⟩ ⟨rfl, rfl, rfl⟩
    | timeout =>
      obtain rfl := Option.some.inj hs
      refine h.goto hm ⟨rfl, rfl, rfl⟩ ?_
      split <;> exact ⟨rfl, rfl, rfl⟩
    | ready => obtain rfl := Option.some.inj hs; exact h.goto hm ⟨rfl, rfl, rfl⟩ ⟨rfl, rfl, rfl⟩
  | accept =>
    simp only [mainStep, hm] at hs
    split at hs
    · obtain rfl := Option.some.inj hs
      refine h.goto hm ⟨rfl, rfl, rfl⟩ ?_
      split <;> exact ⟨rfl, rfl, rfl⟩
    · exact h.accept hm (Option.some.inj hs).symm
  | inc conn => exact h.inc hm hs
  | refuse x => exact h.refusing hm hs
  | spawn conn => exact h.spawn hm hs
  | join i =>
    simp only [mainStep, hm] at hs
    split at hs
    · obtain rfl := Option.some.inj hs
      exact h.goto hm ⟨rfl, rfl, rfl⟩ ⟨rfl, rfl, rfl⟩
    · split at hs
      · obtain rfl := Option.some.inj hs
        exact h.goto hm ⟨rfl, rfl, rfl⟩ ⟨rfl, rfl, rfl⟩
      · cases hs
  | finished => simp only [mainStep, hm] at hs; cases hs

/-- Every run of a server is an admission of clients under the limit, and the counter counts those
who are admitted or refused and have not left. -/
theorem server_follows (h : (server code lim).Reachable s) :
    Counted lim s ∧ s.admission.Accounted lim.maxClients := by
  suffices Counted lim s ∧
      Relation.ReflTransGen (Admission.Step lim.maxClients) .empty s.admission from
    ⟨this.1, Admission.accounted_of_steps this.2⟩
  refine System.Reachable.invariant (I := fun s => Counted lim s ∧
    Relation.ReflTransGen (Admission.Step lim.maxClients) .empty s.admission)
    ⟨⟨rfl, Nat.zero_le _⟩, .refl⟩ ?_ h
  rintro s e s' ⟨hcounted, hsteps⟩ hs
  suffices Counted lim s' ∧ Follows lim s s' from ⟨this.1, hsteps.trans this.2⟩
  cases e with
  | signal =>
    obtain rfl := Option.some.inj hs
    exact hcounted.stay rfl rfl (.refl _) rfl rfl rfl hcounted.threads
  | main o => exact mainStep_follows hcounted hs
  | client i => exact clientStep_follows hcounted hs

/-! ### The end of a run -/

/-- The threads that `run` has waited for have returned. -/
structure Joined (s : State) : Prop where
  join : s.main = .join i → ∀ x ∈ s.threads.take i, x.rest = []
  finished : s.main = .finished → ∀ x ∈ s.threads, x.rest = []

theorem Session.rest_ne_nil {x x' : Session} (h : x.next = some (a, x')) : x.rest ≠ [] := by
  obtain ⟨conn, rest, honce⟩ := x
  rintro rfl
  cases h

/-- `run` has not begun to wait. -/
theorem Joined.start (h : ((∀ i, s.main ≠ .join i) ∧ s.main ≠ .finished) ∨ s.main = .join 0) :
    Joined s := by
  rcases h with ⟨hjoin, hfin⟩ | h
  · exact ⟨fun hi => absurd hi (hjoin _), fun hf => absurd hf hfin⟩
  · refine ⟨fun hi => ?_, fun hf => by rw [h] at hf; cases hf⟩
    rw [h] at hi
    obtain rfl := MainPc.join.inj hi
    nofun

/-- A thread that has been waited for takes no step. -/
theorem clientStep_joined (hj : Joined s) (hs : clientStep s i = some s') : Joined s' := by
  obtain ⟨l, x, l', a, x', hthreads, -, hnext, hs'⟩ := clientStep_cases hs
  have hmain : s'.main = s.main := by rw [hs', State.perform_main]
  have hthreads' : s'.threads = l ++ x' :: l' := by rw [hs', State.perform_threads]
  have hx := Session.rest_ne_nil hnext
  refine ⟨fun hm => ?_, fun hm => ?_⟩
  · have hjoin := hj.join (hmain ▸ hm)
    rename_i j
    rw [hthreads] at hjoin
    have hle : j ≤ l.length := by
      refine Nat.not_lt.mp fun hlt => hx (hjoin x ?_)
      rw [List.take_append, List.mem_append, show j - l.length = j - l.length - 1 + 1 by omega]
      exact .inr List.mem_cons_self
    rw [List.take_append_of_le_length hle] at hjoin
    rw [hthreads', List.take_append_of_le_length hle]
    exact hjoin
  · exact absurd (hj.finished (hmain ▸ hm) x (by simp [hthreads])) hx

/-- The accepting thread goes on when the thread it waits for has returned. -/
theorem mainStep_joined (hj : Joined s) (hs : mainStep code lim s o = some s') : Joined s' := by
  cases hm : s.main with
  | join i =>
    simp only [mainStep, hm] at hs
    have hjoin := hj.join hm
    split at hs
    next hi =>
      obtain rfl := Option.some.inj hs
      rw [List.take_of_length_le (List.getElem?_eq_none_iff.mp hi)] at hjoin
      exact ⟨nofun, fun _ => hjoin⟩
    next x hi =>
      split at hs
      next hx =>
        obtain rfl := Option.some.inj hs
        refine ⟨fun hi' => ?_, nofun⟩
        obtain rfl := MainPc.join.inj hi'
        intro y hy
        rw [List.take_add_one, hi, Option.toList_some, List.mem_append, List.mem_singleton] at hy
        rcases hy with hy | rfl
        · exact hjoin y hy
        · exact hx
      next => cases hs
  | finished => simp only [mainStep, hm] at hs; cases hs
  | loop =>
    simp only [mainStep, hm] at hs
    obtain rfl := Option.some.inj hs
    split
    · exact .start (.inr rfl)
    · exact .start (.inl ⟨nofun, nofun⟩)
  | select =>
    simp only [mainStep, hm] at hs
    cases o with
    | error => obtain rfl := Option.some.inj hs; exact .start (.inr rfl)
    | timeout =>
      obtain rfl := Option.some.inj hs
      split
      · exact .start (.inr rfl)
      · exact .start (.inl ⟨nofun, nofun⟩)
    | ready => obtain rfl := Option.some.inj hs; exact .start (.inl ⟨nofun, nofun⟩)
  | accept =>
    simp only [mainStep, hm] at hs
    split at hs
    · obtain rfl := Option.some.inj hs
      split
      · exact .start (.inr rfl)
      · exact .start (.inl ⟨nofun, nofun⟩)
    · obtain rfl := Option.some.inj hs
      exact .start (.inl ⟨nofun, nofun⟩)
  | inc conn =>
    simp only [mainStep, hm] at hs
    obtain rfl := Option.some.inj hs
    split <;> exact .start (.inl ⟨nofun, nofun⟩)
  | refuse x =>
    simp only [mainStep, hm] at hs
    split at hs
    · obtain rfl := Option.some.inj hs
      exact .start (.inl ⟨nofun, nofun⟩)
    next a x' _ =>
      have hmain : s'.main = .refuse x' := by rw [← Option.some.inj hs, State.perform_main]
      refine .start (.inl ⟨fun i hi => ?_, fun hf => ?_⟩)
      · rw [hmain] at hi; cases hi
      · rw [hmain] at hf; cases hf
  | spawn conn =>
    simp only [mainStep, hm, Option.ite_none_right_eq_some, Option.some.injEq] at hs
    obtain ⟨-, rfl⟩ := hs
    exact .start (.inl ⟨nofun, nofun⟩)

/-- When `run` returns, all client threads have. -/
theorem joined_of_reachable (h : (server code lim).Reachable s) : Joined s := by
  refine System.Reachable.invariant (M := server code lim) (I := Joined) ⟨nofun, nofun⟩ ?_ h
  intro s e s' hj hs
  cases e with
  | signal => obtain rfl := Option.some.inj hs; exact ⟨hj.join, hj.finished⟩
  | main o => exact mainStep_joined hj hs
  | client i => exact clientStep_joined hj hs

/-! ### The connection limit -/

/-- The accepted connections whose decrement is still to come. -/
def State.owed (s : State) : List Nat := s.waiting ++ s.admitted ++ s.refused

/-- What holds of the counter of a server. -/
structure ConnectionLimit (code : ServerCode) (lim : Limits) (s : State) : Prop where
  /-- It is the number of the accepted connections that have been counted and whose decrement has
  not run. -/
  counter : s.connections =
    ((List.range s.accepted).filter fun conn => conn ∉ s.waiting ∧ conn ∉ s.log).length
  /-- A decrement takes one from it, so that it never goes below zero. -/
  decrement : ∀ e s', (server code lim).step s e = some s' → s'.log ≠ s.log →
    s'.connections + 1 = s.connections
  /-- The decrement of every accepted connection has run once or is still to come, once. -/
  once : ∀ conn < s.accepted, s.log.count conn + s.owed.count conn = 1
  /-- When `run` has returned, all decrements have run. -/
  returned : s.main = .finished → s.log.Perm (List.range s.accepted)
  served : s.admitted.length ≤ lim.maxClients

/-- A step of the accepting thread changes the log when it is done with a refused connection. -/
theorem mainStep_log (hs : mainStep code lim s o = some s') : s'.log = s.log ∨
    ∃ x x', s.main = .refuse x ∧ s'.main = .refuse x' ∧ s'.log = s.log ++ [x.conn] ∧
      s'.accepted = s.accepted := by
  unfold mainStep at hs
  split at hs
  case h_1 | h_4 => obtain rfl := Option.some.inj hs; exact .inl rfl
  case h_2 => cases o <;> (obtain rfl := Option.some.inj hs; exact .inl rfl)
  case h_3 => cases o <;> (obtain rfl := Option.some.inj hs; exact .inl rfl)
  case h_5 x hm =>
    split at hs
    · obtain rfl := Option.some.inj hs
      exact .inl rfl
    next a x' _ =>
      obtain rfl := Option.some.inj hs
      rw [State.perform_log, State.perform_accepted, State.perform_main]
      by_cases ha : a = .decConnections
      · exact .inr ⟨x, x', hm, rfl, by rw [if_pos ha], rfl⟩
      · exact .inl (by simp [ha])
  case h_6 =>
    split at hs
    · obtain rfl := Option.some.inj hs
      exact .inl rfl
    · cases hs
  case h_7 =>
    split at hs
    · obtain rfl := Option.some.inj hs
      exact .inl rfl
    · split at hs
      · obtain rfl := Option.some.inj hs
        exact .inl rfl
      · cases hs
  case h_8 => cases hs

/-- A step changes the log by one decrement, or not at all. -/
theorem step_log (hs : (server code lim).step s e = some s') : s'.log = s.log ∨
    (∃ conn, s'.log = s.log ++ [conn]) ∧ s'.accepted = s.accepted ∧ s'.waiting = s.waiting := by
  cases e with
  | signal => obtain rfl := Option.some.inj hs; exact .inl rfl
  | client i =>
    obtain ⟨l, x, l', a, x', -, -, -, rfl⟩ := clientStep_cases hs
    rw [State.perform_log, State.perform_accepted, State.waiting, State.perform_main]
    by_cases ha : a = .decConnections
    · exact .inr ⟨⟨x.conn, by rw [if_pos ha]⟩, rfl, rfl⟩
    · exact .inl (by simp [ha])
  | main o =>
    rcases mainStep_log hs with hlog | ⟨x, x', hm, hm', hlog, haccepted⟩
    · exact .inl hlog
    · exact .inr ⟨⟨_, hlog⟩, haccepted, by rw [State.waiting, State.waiting, hm, hm']; rfl⟩

/-- Everyone who has been accepted waits, is counted, or has gone. -/
theorem connections_add (h : (server code lim).Reachable s) :
    s.connections + s.waiting.length + s.log.length = s.accepted := by
  obtain ⟨hcounted, haccounted⟩ := server_follows h
  have hcard := congrArg Multiset.card haccounted.everyone
  simp only [State.admission, Multiset.card_add, Multiset.coe_card, Multiset.card_range] at hcard
  have := hcounted.connections
  omega

/-- A thread that has returned owes nothing. -/
theorem flatMap_owed_eq_nil {threads : List Session} (h : ∀ x ∈ threads, x.rest = []) :
    threads.flatMap Session.owed = [] := by
  refine List.flatMap_eq_nil_iff.mpr fun x hx => ?_
  simp [Session.owed, h x hx]

/-- The counter of a server in every state that it reaches. -/
theorem connectionLimit (h : (server code lim).Reachable s) : ConnectionLimit code lim s := by
  obtain ⟨hcounted, haccounted⟩ := server_follows h
  have heveryone := haccounted.everyone
  simp only [State.admission] at heveryone
  constructor
  case counter =>
    rw [hcounted.connections]
    exact haccounted.card_present.symm
  case decrement =>
    intro e s' hs hlog
    obtain ⟨⟨conn, hconn⟩, haccepted, hwaiting⟩ := (step_log hs).resolve_left hlog
    have hadd := connections_add h
    have hadd' := connections_add (h.step hs)
    rw [haccepted, hwaiting, hconn, List.length_append, List.length_singleton] at hadd'
    omega
  case once =>
    intro conn hconn
    have hcount := congrArg (Multiset.count conn) heveryone
    rw [Multiset.count_eq_one_of_mem (Multiset.nodup_range _) (Multiset.mem_range.mpr hconn)]
      at hcount
    simp only [Multiset.count_add, Multiset.coe_count] at hcount
    rw [State.owed, List.count_append, List.count_append]
    omega
  case returned =>
    intro hm
    have hthreads := flatMap_owed_eq_nil ((joined_of_reachable h).finished hm)
    simp only [State.waiting, State.admitted, State.refused, hm, hthreads, MainPc.waiting,
      MainPc.spawning, MainPc.refusing] at heveryone
    have hlog : (s.log : Multiset ℕ) = Multiset.range s.accepted := by simpa using heveryone
    exact Multiset.coe_eq_coe.mp hlog
  case served => exact haccounted.admitted_le

/-- The counters of `FTPServer` and `SSHServer` in every state that they reach. -/
theorem honeypot_connectionLimit (lim : Limits) (s : State) :
    ((server ftpServer lim).Reachable s → ConnectionLimit ftpServer lim s) ∧
      ((server sshServer lim).Reachable s → ConnectionLimit sshServer lim s) :=
  ⟨connectionLimit, connectionLimit⟩

/-- One client at a time. -/
def oneClient : Limits := ⟨1, 100, by decide⟩

/-- A client is served, and another one is refused and taken off the count. -/
def refusal : List Event := List.replicate 11 (.main .ready)

/-- The counter while one client is served and another one has been refused. -/
theorem honeypot_connectionLimit_refusal :
    ∃ s, (server ftpServer oneClient).Reachable s ∧ (s.admitted = [0] ∧ s.log = [1]) ∧
      ConnectionLimit ftpServer oneClient s := by
  obtain ⟨s, hrun, hs⟩ := System.exists_runs (M := server ftpServer oneClient)
    (s := (server ftpServer oneClient).init) (l := refusal)
    (p := fun s => s.admitted = [0] ∧ s.log = [1]) (by decide)
  have hreach := System.Reachable.runs .init hrun
  exact ⟨s, hreach, by simpa using hs, (honeypot_connectionLimit oneClient s).1 hreach⟩

/-- Between `accept` and `incConnections` a connection is accepted and not counted. -/
theorem accepted_not_counted : ¬ ∀ lim s, (server ftpServer lim).Reachable s →
    s.connections = ((List.range s.accepted).filter fun conn => conn ∉ s.log).length := by
  intro h
  obtain ⟨s, hrun, hs⟩ := System.exists_runs (M := server ftpServer oneClient)
    (s := (server ftpServer oneClient).init) (l := List.replicate 3 (.main .ready))
    (p := fun s => s.connections ≠ ((List.range s.accepted).filter fun conn => conn ∉ s.log).length)
    (by decide)
  exact of_decide_eq_true hs (h oneClient s (System.Reachable.runs .init hrun))

end Honeypot
