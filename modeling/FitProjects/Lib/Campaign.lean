import FitProjects.Lib.System
import Mathlib.Algebra.BigOperators.Group.Finset.Basic
import Mathlib.Data.Fintype.BigOperators

/-! # Rounds until a signal

Threads send the messages of a round again and again until a signal is seen, each of them then sends
closing messages, and the main thread sends some more after all threads have returned. Messages have
keys, and the last message of a key is the one that counts. When every message of a round has its
key among the closing messages that follow, then at the end the last messages of all keys are closing
ones, in every order of the turns. -/

/-- What the threads send. -/
structure Campaign (n : Nat) (ε : Type u) where
  rounds : Fin n → List ε
  closing : Fin n → List ε
  final : List ε

namespace Campaign

/-- What a thread has still to send in its round, or of its closing messages. -/
inductive Phase (ε : Type u)
  | round (rest : List ε)
  | closing (rest : List ε)

def Phase.returned : Phase ε → Bool
  | .closing [] => true
  | _ => false

structure State (n : Nat) (ε : Type u) where
  signaled : Bool
  threads : Fin n → Phase ε
  /-- What the main thread has still to send when it has joined the threads. -/
  main : Option (List ε)
  log : List ε

inductive Action (n : Nat)
  | signal
  | turn (i : Fin n)
  | main

variable {ε : Type u} {n : Nat} (C : Campaign n ε)

/-- A thread that has nothing to send returns at once. -/
def init : State n ε :=
  ⟨false, fun i => if (C.rounds i).isEmpty then .closing [] else .round [], none, []⟩

def State.goto (s : State n ε) (i : Fin n) (p : Phase ε) : State n ε :=
  { s with threads := Function.update s.threads i p }

def State.send (s : State n ε) (i : Fin n) (e : ε) (p : Phase ε) : State n ε :=
  { s.goto i p with log := s.log ++ [e] }

/-- The signal is tested between two rounds. -/
def turn (s : State n ε) (i : Fin n) : Option (State n ε) :=
  match s.threads i with
  | .round (e :: rest) => some (s.send i e (.round rest))
  | .round [] =>
    some (s.goto i (if s.signaled then .closing (C.closing i) else .round (C.rounds i)))
  | .closing (e :: rest) => some (s.send i e (.closing rest))
  | .closing [] => none

def mainTurn (s : State n ε) : Option (State n ε) :=
  match s.main with
  | none => if ∀ i, (s.threads i).returned then some { s with main := some C.final } else none
  | some (e :: rest) => some { s with main := some rest, log := s.log ++ [e] }
  | some [] => none

def step (s : State n ε) : Action n → Option (State n ε)
  | .signal => some { s with signaled := true }
  | .turn i => C.turn s i
  | .main => C.mainTurn s

def system : System (State n ε) (Action n) := ⟨C.init, C.step⟩

def State.finished (s : State n ε) : Prop := s.main = some []

/-- The last message with a key. -/
def last [DecidableEq κ] (key : ε → κ) (log : List ε) (k : κ) : Option ε :=
  (log.filter fun e => key e = k).getLast?

/-- Every message of a round has its key among the closing messages that follow. -/
structure Closes (key : ε → κ) : Prop where
  closed : ∀ i, ∀ e ∈ C.rounds i, ∃ e' ∈ C.closing i ++ C.final, key e' = key e

/-- A closing message. -/
def Closing (e : ε) : Prop := (∃ i, e ∈ C.closing i) ∨ e ∈ C.final

/-! ## The last message of a key -/

section
variable [DecidableEq κ] {key : ε → κ} {log : List ε}

theorem last_concat (e : ε) (k : κ) :
    last key (log ++ [e]) k = if key e = k then some e else last key log k := by
  rw [last, List.filter_append]
  split
  next h => rw [List.filter_cons_of_pos (by simpa using h), List.filter_nil, List.getLast?_concat]
  next h => rw [List.filter_cons_of_neg (by simpa using h), List.filter_nil, List.append_nil, last]

theorem last_eq_some (h : last key log k = some e) : e ∈ log ∧ key e = k := by
  have hmem := List.mem_filter.mp (List.mem_of_getLast? h)
  exact ⟨hmem.1, of_decide_eq_true hmem.2⟩

end

/-! ## What is still to be sent -/

variable {C} {s s' : State n ε} {e : ε}

/-- The closing messages that a thread has still to send. -/
def Phase.pending (closing : List ε) : Phase ε → List ε
  | .round _ => closing
  | .closing rest => rest

variable (C) in
/-- The closing messages still to be sent. -/
def Pending (s : State n ε) (e : ε) : Prop :=
  (∃ i, e ∈ (s.threads i).pending (C.closing i)) ∨ e ∈ s.main.getD C.final

theorem Phase.returned_iff {p : Phase ε} : p.returned = true ↔ p = .closing [] := by
  rcases p with rest | (_ | ⟨e, rest⟩)
  · simp [returned]
  · simp [returned]
  · simp [returned]

variable (C) in
/-- What a thread may still send belongs to it. -/
def Phase.Within (i : Fin n) : Phase ε → Prop
  | .round rest => rest ⊆ C.rounds i
  | .closing rest => rest ⊆ C.closing i

variable (C) in
/-- The invariant of all runs: `keys` says that the last message of a key is a closing one, or a
closing one is still to come. -/
structure Inv [DecidableEq κ] (key : ε → κ) (s : State n ε) : Prop where
  threads : ∀ i, (s.threads i).Within C i
  joined : ∀ {rest}, s.main = some rest → (∀ i, s.threads i = .closing []) ∧ rest ⊆ C.final
  sent : ∀ e ∈ s.log, C.Closing e ∨ ∃ i, e ∈ C.rounds i
  keys : ∀ {k e}, last key s.log k = some e → C.Closing e ∨ ∃ e', C.Pending s e' ∧ key e' = k

variable [DecidableEq κ] {key : ε → κ} {i : Fin n} {p : Phase ε} {Q : ε → Prop}

theorem goto_self : (s.goto i p).threads i = p := Function.update_self ..

theorem goto_of_ne (h : j ≠ i) : (s.goto i p).threads j = s.threads j := Function.update_of_ne h ..

theorem inv_init : Inv C key C.init where
  threads i := by
    dsimp only [init]
    split
    · exact List.nil_subset _
    · exact List.nil_subset _
  joined h := nomatch h
  sent e he := nomatch he
  keys h := nomatch h

/-- A thread that moves has not been joined. -/
theorem Inv.main_eq_none (h : Inv C key s) (hi : s.threads i ≠ .closing []) : s.main = none := by
  cases hmain : s.main with
  | none => rfl
  | some rest => exact absurd ((h.joined hmain).1 i) hi

theorem pending_update (hp : ∀ e ∈ (s.threads i).pending (C.closing i),
    Q e ∨ e ∈ p.pending (C.closing i)) (h : C.Pending s e) :
    Q e ∨ C.Pending (s.goto i p) e := by
  rcases h with ⟨j, hj⟩ | h
  · rcases eq_or_ne j i with rfl | hne
    · refine (hp e hj).imp_right fun hmem => .inl ⟨j, ?_⟩
      rwa [goto_self]
    · refine .inr (.inl ⟨j, ?_⟩)
      rwa [goto_of_ne hne]
  · exact .inr (.inr h)

theorem Inv.goto (h : Inv C key s) (hi : s.threads i ≠ .closing [])
    (hp : p.Within C i) (hpending : ∀ e ∈ (s.threads i).pending (C.closing i),
      e ∈ p.pending (C.closing i)) : Inv C key (s.goto i p) where
  threads j := by
    rcases eq_or_ne j i with rfl | hne
    · rwa [goto_self]
    · rw [goto_of_ne hne]
      exact h.threads j
  joined hmain := by
    rw [State.goto, h.main_eq_none hi] at hmain
    cases hmain
  sent := h.sent
  keys hlast := by
    refine (h.keys hlast).imp_right ?_
    rintro ⟨e', he', hkey⟩
    rcases pending_update (Q := fun _ => False) (fun e he => .inr (hpending e he)) he' with hf | he'
    · exact hf.elim
    · exact ⟨e', he', hkey⟩

/-- One message more: it has its key still to come, or it is a closing one. -/
theorem Inv.send (h : Inv C key s) (hi : s.threads i ≠ .closing [])
    (hp : p.Within C i) (he : C.Closing e ∨ ∃ i, e ∈ C.rounds i)
    (hkey : C.Closing e ∨ ∃ e', C.Pending (s.goto i p) e' ∧ key e' = key e)
    (hpending : ∀ e' ∈ (s.threads i).pending (C.closing i),
      e' = e ∨ e' ∈ p.pending (C.closing i)) : Inv C key (s.send i e p) where
  threads j := by
    rcases eq_or_ne j i with rfl | hne
    · rwa [State.send, goto_self]
    · rw [State.send, goto_of_ne hne]
      exact h.threads j
  joined hmain := by
    rw [State.send, State.goto, h.main_eq_none hi] at hmain
    cases hmain
  sent e' he' := by
    rcases List.mem_append.mp he' with he' | he'
    · exact h.sent e' he'
    · rwa [List.mem_singleton.mp he']
  keys := by
    intro k e₀ hlast
    rw [State.send, last_concat] at hlast
    split at hlast
    · cases hlast
      subst_vars
      exact hkey
    · rename_i hne
      refine (h.keys hlast).imp_right ?_
      rintro ⟨e', he', rfl⟩
      rcases pending_update (Q := (· = e)) hpending he' with rfl | he'
      · exact absurd rfl hne
      · exact ⟨e', he', rfl⟩

theorem Inv.turn (hC : C.Closes key) (h : Inv C key s) (hstep : C.turn s i = some s') :
    Inv C key s' := by
  have hwithin := h.threads i
  rw [Campaign.turn] at hstep
  split at hstep
  next e rest hthread =>
    -- a message of the round is taken back by the thread itself or by the main thread
    cases hstep
    rw [hthread] at hwithin
    have hmem : e ∈ C.rounds i := hwithin List.mem_cons_self
    have hi : s.threads i ≠ .closing [] := by rw [hthread]; exact nofun
    refine h.send hi (fun _ he => hwithin (List.mem_cons_of_mem _ he)) (.inr ⟨i, hmem⟩) (.inr ?_)
      fun e' he' => .inr (by rwa [hthread] at he')
    obtain ⟨e', he', hkey⟩ := hC.closed i e hmem
    refine ⟨e', ?_, hkey⟩
    rcases List.mem_append.mp he' with he' | he'
    · exact .inl ⟨i, by rwa [goto_self]⟩
    · exact .inr (by rwa [State.goto, h.main_eq_none hi])
  next hthread =>
    cases hstep
    have hi : s.threads i ≠ .closing [] := by rw [hthread]; exact nofun
    split
    · exact h.goto hi (List.Subset.refl _) fun e he => by rwa [hthread] at he
    · exact h.goto hi (List.Subset.refl _) fun e he => by rwa [hthread] at he
  next e rest hthread =>
    cases hstep
    rw [hthread] at hwithin
    have hclosing : C.Closing e := .inl ⟨i, hwithin List.mem_cons_self⟩
    refine h.send (by rw [hthread]; exact nofun) (fun _ he => hwithin (List.mem_cons_of_mem _ he))
      (.inl hclosing) (.inl hclosing) fun e' he' => ?_
    rw [hthread] at he'
    exact List.mem_cons.mp he'
  next => cases hstep

theorem Inv.mainTurn (h : Inv C key s) (hstep : C.mainTurn s = some s') : Inv C key s' := by
  rw [Campaign.mainTurn] at hstep
  split at hstep
  next hmain =>
    split at hstep
    · rename_i hreturned
      cases hstep
      refine ⟨h.threads, ?_, h.sent, fun hlast => (h.keys hlast).imp_right ?_⟩
      · rintro rest ⟨⟩
        exact ⟨fun i => Phase.returned_iff.mp (hreturned i), List.Subset.refl _⟩
      · rintro ⟨e', he', hkey⟩
        refine ⟨e', he'.imp_right fun hfinal => ?_, hkey⟩
        rwa [hmain] at hfinal
    · cases hstep
  next e rest hmain =>
    cases hstep
    obtain ⟨hthreads, hsub⟩ := h.joined hmain
    have hclosing : C.Closing e := .inr (hsub List.mem_cons_self)
    refine ⟨h.threads, ?_, ?_, ?_⟩
    · rintro rest' ⟨⟩
      exact ⟨hthreads, fun _ he => hsub (List.mem_cons_of_mem _ he)⟩
    · intro e' he'
      rcases List.mem_append.mp he' with he' | he'
      · exact h.sent e' he'
      · rw [List.mem_singleton.mp he']
        exact .inl hclosing
    · intro k e₀ hlast
      rw [last_concat] at hlast
      split at hlast
      · cases hlast
        exact .inl hclosing
      · rename_i hne
        refine (h.keys hlast).imp_right ?_
        rintro ⟨e', he' | he', rfl⟩
        · exact ⟨e', .inl he', rfl⟩
        · rw [hmain] at he'
          rcases List.mem_cons.mp he' with rfl | he'
          · exact absurd rfl hne
          · exact ⟨e', .inr he', rfl⟩
  next => cases hstep

/-- The run lemma. -/
theorem inv_of_reachable (hC : C.Closes key) (h : C.system.Reachable s) : Inv C key s := by
  refine h.invariant inv_init ?_
  intro s a s' hs hstep
  cases a with
  | signal =>
    cases hstep
    exact ⟨hs.threads, hs.joined, hs.sent, hs.keys⟩
  | turn i => exact hs.turn hC hstep
  | main => exact hs.mainTurn hstep

/-- At the end the last messages of all keys are closing ones. -/
theorem closing_of_finished (hC : C.Closes key) (h : C.system.Reachable s) (hfin : s.finished)
    (hlast : last key s.log k = some e) : C.Closing e := by
  have hinv := inv_of_reachable hC h
  refine (hinv.keys hlast).resolve_right ?_
  rintro ⟨e', ⟨i, he'⟩ | he', -⟩
  · rw [(hinv.joined hfin).1 i] at he'
    cases he'
  · rw [hfin] at he'
    cases he'

/-! ## After the signal -/

/-- The turns that a thread has still to take when the signal is set. -/
def Phase.rank (closing : List ε) : Phase ε → Nat
  | .round rest => rest.length + 1 + closing.length
  | .closing rest => rest.length

variable (C) in
/-- The turns still to be taken when the signal is set. -/
def rank (s : State n ε) : Nat :=
  ∑ i, (s.threads i).rank (C.closing i) +
    match s.main with
    | none => C.final.length + 1
    | some rest => rest.length

theorem sum_goto (h : p.rank (C.closing i) + 1 = (s.threads i).rank (C.closing i)) :
    ∑ j, ((s.goto i p).threads j).rank (C.closing j) + 1 =
      ∑ j, (s.threads j).rank (C.closing j) := by
  have hrest : ∑ j ∈ Finset.univ.erase i, ((s.goto i p).threads j).rank (C.closing j) =
      ∑ j ∈ Finset.univ.erase i, (s.threads j).rank (C.closing j) :=
    Finset.sum_congr rfl fun j hj => by rw [goto_of_ne (Finset.ne_of_mem_erase hj)]
  rw [← Finset.add_sum_erase _ _ (Finset.mem_univ i), ← Finset.add_sum_erase _ _
    (Finset.mem_univ i), hrest, goto_self, ← h]
  omega

theorem rank_goto (h : p.rank (C.closing i) + 1 = (s.threads i).rank (C.closing i)) :
    C.rank (s.goto i p) + 1 = C.rank s := by
  have hsum := sum_goto h
  rw [rank, rank]
  dsimp only [State.goto] at hsum ⊢
  omega

/-- After the signal every turn brings the end nearer. -/
theorem rank_step {a : Action n} (hs : s.signaled) (ha : a ≠ .signal)
    (hstep : C.step s a = some s') : s'.signaled ∧ C.rank s' + 1 = C.rank s := by
  cases a with
  | signal => exact absurd rfl ha
  | turn i =>
    rw [step, turn] at hstep
    split at hstep
    next e rest hthread =>
      cases hstep
      refine ⟨hs, rank_goto (s := s) (p := .round rest) ?_⟩
      rw [hthread, Phase.rank, Phase.rank, List.length_cons]
      omega
    next hthread =>
      rw [if_pos hs] at hstep
      cases hstep
      refine ⟨hs, rank_goto ?_⟩
      rw [hthread, Phase.rank, Phase.rank, List.length_nil]
      omega
    next e rest hthread =>
      cases hstep
      refine ⟨hs, rank_goto (s := s) (p := .closing rest) ?_⟩
      rw [hthread, Phase.rank, Phase.rank, List.length_cons]
    next => cases hstep
  | main =>
    rw [step, mainTurn] at hstep
    split at hstep
    next hmain =>
      split at hstep
      · cases hstep
        refine ⟨hs, ?_⟩
        rw [rank, rank, hmain]
        rfl
      · cases hstep
    next e rest hmain =>
      cases hstep
      refine ⟨hs, ?_⟩
      rw [rank, rank, hmain]
      rfl
    next => cases hstep

theorem rank_runs {l : List (Action n)} (hs : s.signaled) (hl : .signal ∉ l)
    (hruns : C.system.runs s l = some s') :
    s'.signaled ∧ C.rank s' + l.length = C.rank s := by
  induction l generalizing s with
  | nil =>
    cases hruns
    exact ⟨hs, rfl⟩
  | cons a l ih =>
    rw [List.mem_cons, not_or] at hl
    obtain ⟨t, ht, hruns⟩ := Option.bind_eq_some_iff.mp hruns
    obtain ⟨hsignaled, hrank⟩ := rank_step hs (Ne.symm hl.1) ht
    obtain ⟨hs', hrest⟩ := ih hsignaled hl.2 hruns
    refine ⟨hs', ?_⟩
    rw [List.length_cons]
    omega

/-- Some thread can always take its turn before the end. -/
theorem exists_step (hfin : ¬s.finished) :
    ∃ a s', a ≠ Action.signal ∧ C.step s a = some s' := by
  rcases hmain : s.main with _ | _ | ⟨e, rest⟩
  · by_cases hall : ∀ i, (s.threads i).returned = true
    · exact ⟨.main, _, nofun, by rw [step, mainTurn, hmain]; exact if_pos hall⟩
    · obtain ⟨i, hi⟩ := not_forall.mp hall
      refine ⟨.turn i, ?_⟩
      rcases hthread : s.threads i with (_ | ⟨e, rest⟩) | (_ | ⟨e, rest⟩)
      · exact ⟨_, nofun, by rw [step, turn, hthread]⟩
      · exact ⟨_, nofun, by rw [step, turn, hthread]⟩
      · rw [hthread] at hi
        exact absurd rfl hi
      · exact ⟨_, nofun, by rw [step, turn, hthread]⟩
  · exact absurd hmain hfin
  · exact ⟨.main, _, nofun, by rw [step, mainTurn, hmain]⟩

/-- After the signal the end is reached in exactly the turns that are left. -/
theorem finished_of_rank {l : List (Action n)} (hs : s.signaled) (hl : .signal ∉ l)
    (hruns : C.system.runs s l = some s') (hlen : C.rank s ≤ l.length) : s'.finished := by
  obtain ⟨hsignaled, hrank⟩ := rank_runs hs hl hruns
  by_contra hfin
  obtain ⟨a, t, ha, hstep⟩ := exists_step (C := C) hfin
  have hlt := (rank_step hsignaled ha hstep).2
  omega

end Campaign
