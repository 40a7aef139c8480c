import FitProjects.Lib.Ring

/-! # The queue of characters in an array

The functions of `IAL/c203.c`. `size` is `QUEUE_SIZE`; the array itself may be longer. An access
outside of the array is `none`. -/

namespace CharQueue

/-- `tQueue`. -/
structure TQueue where
  arr : List Char
  fIndex : Nat
  bIndex : Nat
  deriving DecidableEq

/-- The codes that `queueError` is called with. -/
inductive QErr
  | up
  | front
  | remove
  | get
  | init

/-- `QERR_STRINGS`. -/
def QErr.string : QErr → String
  | up => "Queue error: UP"
  | front => "Queue error: FRONT"
  | remove => "Queue error: REMOVE"
  | get => "Queue error: GET"
  | init => "Queue error: INIT"

/-- What `queueError` changes: the printed lines and `err_flag`. -/
structure Console where
  printed : List String
  errFlag : Bool
  deriving DecidableEq

def Console.queueError (o : Console) (code : QErr) : Console :=
  ⟨o.printed ++ [code.string], true⟩

/-- A queue, the variable that `c` points to, and the console. -/
structure State where
  q : TQueue
  c : Char
  console : Console
  deriving DecidableEq

/-- The calls; `initNull` is `queueInit (NULL)`. -/
inductive Call
  | init
  | initNull
  | empty
  | full
  | front
  | remove
  | get
  | up (c : Char)

namespace TQueue

variable (q : TQueue)

def store (i : Nat) (c : Char) : Option TQueue :=
  if i < q.arr.length then some { q with arr := q.arr.set i c } else none

/-- The loop of `queueInit`, from the index `i` on. -/
def fill (q : TQueue) (i : Nat) : Nat → Option TQueue
  | 0 => some q
  | k + 1 => do
    let q ← q.store i '*'
    fill q (i + 1) k

end TQueue

section

variable (size : Nat)

def nextIndex (index : Nat) : Nat := (index + 1) % size

namespace State

variable (s : State)

def queueError (code : QErr) : State := { s with console := s.console.queueError code }

def queueInit : Option State := do
  let q ← s.q.fill 0 size
  some { s with q := { q with fIndex := 0, bIndex := 0 } }

def queueEmpty : Bool := s.q.fIndex == s.q.bIndex

def queueFull : Bool := nextIndex size s.q.bIndex == s.q.fIndex

def queueFront : Option State :=
  if s.queueEmpty then some (s.queueError .front) else do
    let c ← s.q.arr[s.q.fIndex]?
    some { s with c }

def queueRemove : State :=
  if s.queueEmpty then s.queueError .remove else
    { s with q := { s.q with fIndex := nextIndex size s.q.fIndex } }

def queueGet : Option State :=
  if s.queueEmpty then some (s.queueError .get) else do
    let s ← s.queueFront
    some (s.queueRemove size)

def queueUp (c : Char) : Option State :=
  if s.queueFull size then some (s.queueError .up) else do
    let q ← s.q.store s.q.bIndex c
    some { s with q := { q with bIndex := nextIndex size q.bIndex } }

/-- One call and the value it returns, if any. -/
def call : Call → Option (State × Option Bool)
  | .init => (s.queueInit size).map (·, none)
  | .initNull => some (s.queueError .init, none)
  | .empty => some (s, s.queueEmpty)
  | .full => some (s, s.queueFull size)
  | .front => s.queueFront.map (·, none)
  | .remove => some (s.queueRemove size, none)
  | .get => (s.queueGet size).map (·, none)
  | .up c => (s.queueUp size c).map (·, none)

/-- The calls of a program, one after the other, with the values they return. -/
def calls (s : State) : List Call → Option (State × List (Option Bool))
  | [] => some (s, [])
  | a :: l => do
    let (s, r) ← s.call size a
    let (s, rs) ← calls s l
    some (s, r :: rs)

end State

end

/-! ## The bounded queue -/

/-- What was put in and taken out since the queue was initialised, `c` and the console. -/
structure Fifo where
  history : Ring.History Char
  c : Char
  console : Console

namespace Fifo

open Ring

variable (capacity : Nat) (t : Fifo)

def error (code : QErr) : Fifo := { t with console := t.console.queueError code }

/-- One call on a queue of at most `capacity` characters. -/
def call : Call → Fifo × Option Bool
  | .init => ({ t with history := .empty }, none)
  | .initNull => (t.error .init, none)
  | .empty => (t, decide (t.history.contents.length = 0))
  | .full => (t, decide (t.history.contents.length = capacity))
  | .front => (match t.history.next? with
    | none => t.error .front
    | some c => { t with c }, none)
  | .remove => (match t.history.next? with
    | none => t.error .remove
    | some _ => { t with history := t.history.take }, none)
  | .get => (match t.history.next? with
    | none => t.error .get
    | some c => { t with history := t.history.take, c }, none)
  | .up c => (if t.history.contents.length = capacity then t.error .up else
      { t with history := t.history.insert c }, none)

def calls (t : Fifo) : List Call → Fifo × List (Option Bool)
  | [] => (t, [])
  | a :: l =>
    let (t, r) := t.call capacity a
    let (t, rs) := calls t l
    (t, r :: rs)

end Fifo

/-! ## The array implements the bounded queue -/

namespace State

open Ring

variable {size : Nat} {s s' : State} {t : Fifo}

/-- The characters in the queue stand in the array from `fIndex` on, around its end, and one place
is always free. -/
structure Rep (size : Nat) (s : State) (t : Fifo) : Prop where
  size_le : size ≤ s.q.arr.length
  front_lt : s.q.fIndex < size
  length_lt : t.history.contents.length < size
  back : s.q.bIndex = (s.q.fIndex + t.history.contents.length) % size
  window : Window s.q.arr size s.q.fIndex t.history.contents
  c : s.c = t.c
  console : s.console = t.console

/-- A call that raises an error changes nothing but the console. -/
def KeepsOnError (s s' : State) : Prop := s'.console ≠ s.console → s'.q = s.q ∧ s'.c = s.c

theorem fill_eq (q : TQueue) (h : i + k ≤ q.arr.length) :
    ∃ arr, q.fill i k = some { q with arr } ∧ arr.length = q.arr.length := by
  induction k generalizing q i with
  | zero => exact ⟨q.arr, rfl, rfl⟩
  | succ k ih =>
    have hstore : q.store i '*' = some { q with arr := q.arr.set i '*' } := if_pos (by omega)
    obtain ⟨arr, hfill, hlen⟩ := ih (i := i + 1) { q with arr := q.arr.set i '*' }
      (by rw [List.length_set]; omega)
    refine ⟨arr, ?_, hlen.trans List.length_set⟩
    rw [TQueue.fill, hstore]
    exact hfill

theorem calls_cons (h : s.call size a = some (s', r)) (hl : s'.calls size l = some (s'', rs)) :
    s.calls size (a :: l) = some (s'', r :: rs) := by
  rw [calls, h]
  exact congrArg (fun x => x.bind fun (s, rs) => some (s, r :: rs)) hl

/-- `queueInit` empties the queue, whatever the memory was before. -/
theorem queueInit_spec (hsize : 0 < size) (hs : size ≤ s.q.arr.length) :
    ∃ s', s.queueInit size = some s' ∧ Rep size s' ⟨.empty, s.c, s.console⟩ := by
  obtain ⟨arr, hfill, hlen⟩ := fill_eq (i := 0) (k := size) s.q (by omega)
  refine ⟨{ s with q := ⟨arr, 0, 0⟩ }, by rw [queueInit, hfill]; rfl, ?_⟩
  exact ⟨hlen ▸ hs, hsize, hsize, by simp, Window.nil _ _ _, rfl, rfl⟩

namespace Rep

theorem queueError (h : Rep size s t) (code : QErr) :
    Rep size (s.queueError code) (t.error code) :=
  ⟨h.size_le, h.front_lt, h.length_lt, h.back, h.window, h.c,
    congrArg (·.queueError code) h.console⟩

theorem back_lt (h : Rep size s t) : s.q.bIndex < size := by
  rw [h.back]
  exact Nat.mod_lt _ (by have := h.front_lt; omega)

theorem queueEmpty (h : Rep size s t) :
    s.queueEmpty = decide (t.history.contents.length = 0) := by
  rw [State.queueEmpty, h.back, Bool.beq_eq_decide_eq, decide_eq_decide, eq_comm]
  exact place_eq_iff h.front_lt h.length_lt

theorem queueFull (h : Rep size s t) :
    s.queueFull size = decide (t.history.contents.length = size - 1) := by
  rw [State.queueFull, nextIndex, h.back, Bool.beq_eq_decide_eq, decide_eq_decide,
    next_eq_iff h.front_lt h.length_lt]
  have := h.length_lt
  omega

/-- The queue is empty, or the first character stands at `fIndex`. -/
theorem front (h : Rep size s t) :
    (s.queueEmpty = true ∧ t.history.next? = none) ∨
    ∃ x, s.queueEmpty = false ∧ t.history.next? = some x ∧ s.q.arr[s.q.fIndex]? = some x := by
  rw [h.queueEmpty, History.next?_eq]
  have hwin := h.window
  cases hl : t.history.contents with
  | nil => exact .inl ⟨rfl, rfl⟩
  | cons x l => exact .inr ⟨x, rfl, rfl, (hl ▸ hwin).head h.front_lt⟩

theorem take (h : Rep size s t) (hx : t.history.next? = some x) :
    Rep size { s with q := { s.q with fIndex := nextIndex size s.q.fIndex } }
      { t with history := t.history.take } := by
  rw [History.next?_eq, List.head?_eq_some_iff] at hx
  obtain ⟨l, hl⟩ := hx
  have hwin : Window s.q.arr size s.q.fIndex (x :: l) := hl ▸ h.window
  have hlen : l.length + 1 < size := by simpa [hl] using h.length_lt
  have hback : s.q.bIndex = (s.q.fIndex + (l.length + 1)) % size := by simpa [hl] using h.back
  have htake : t.history.take.contents = l := by rw [History.contents_take, hl, List.tail_cons]
  refine ⟨h.size_le, Nat.mod_lt _ (by omega), ?_, ?_, ?_, h.c, h.console⟩
  · rw [htake]
    omega
  · change s.q.bIndex = ((s.q.fIndex + 1) % size + _) % size
    rw [htake, Nat.mod_add_mod, hback, Nat.add_assoc, Nat.add_comm 1]
  · rw [htake]
    exact hwin.tail

theorem insert (h : Rep size s t) (hfull : t.history.contents.length ≠ size - 1) (c : Char) :
    ∃ s', s.queueUp size c = some s' ∧ s'.c = s.c ∧ s'.console = s.console ∧
      Rep size s' { t with history := t.history.insert c } := by
  have hlt := h.length_lt
  have hstore : s.q.store s.q.bIndex c = some { s.q with arr := s.q.arr.set s.q.bIndex c } :=
    if_pos (h.back_lt.trans_le h.size_le)
  have hnot : s.queueFull size = false := by rw [h.queueFull, decide_eq_false hfull]
  refine ⟨{ s with q := ⟨s.q.arr.set s.q.bIndex c, s.q.fIndex, nextIndex size s.q.bIndex⟩ },
    by rw [queueUp, hnot, hstore]; rfl, rfl, rfl, ?_⟩
  refine ⟨h.size_le.trans_eq List.length_set.symm, h.front_lt, ?_, ?_, ?_, h.c, h.console⟩
  · rw [History.contents_insert, List.length_append, List.length_singleton]
    omega
  · rw [History.contents_insert, List.length_append, List.length_singleton, nextIndex, h.back,
      Nat.mod_add_mod, Nat.add_assoc]
  · rw [History.contents_insert]
    change Window (s.q.arr.set s.q.bIndex c) _ _ _
    rw [h.back]
    exact h.window.push h.size_le hlt c

/-- Every call is defined, does what it does on the bounded queue, and keeps everything when it
raises an error. -/
theorem call (h : Rep size s t) (a : Call) :
    ∃ s', s.call size a = some (s', (t.call (size - 1) a).2) ∧
      Rep size s' (t.call (size - 1) a).1 ∧ KeepsOnError s s' := by
  have hsize : 0 < size := by have := h.front_lt; omega
  cases a with
  | init =>
    obtain ⟨s', hs', hrep⟩ := queueInit_spec hsize h.size_le
    refine ⟨s', by rw [State.call, hs']; rfl, ?_, fun hne => ?_⟩
    · rw [h.c, h.console] at hrep
      exact hrep
    · exact absurd hrep.console hne
  | initNull => exact ⟨_, rfl, h.queueError .init, fun _ => ⟨rfl, rfl⟩⟩
  | empty => exact ⟨s, by rw [State.call, h.queueEmpty]; rfl, h, fun _ => ⟨rfl, rfl⟩⟩
  | full => exact ⟨s, by rw [State.call, h.queueFull]; rfl, h, fun _ => ⟨rfl, rfl⟩⟩
  | front =>
    rcases h.front with ⟨hempty, hnext⟩ | ⟨x, hempty, hnext, hx⟩
    · refine ⟨s.queueError .front, by simp [State.call, queueFront, hempty, Fifo.call], ?_,
        fun _ => ⟨rfl, rfl⟩⟩
      simpa [Fifo.call, hnext] using h.queueError .front
    · refine ⟨{ s with c := x }, by simp [State.call, queueFront, hempty, hx, Fifo.call], ?_,
        fun hne => absurd rfl hne⟩
      simp only [Fifo.call, hnext]
      exact ⟨h.size_le, h.front_lt, h.length_lt, h.back, h.window, rfl, h.console⟩
  | remove =>
    rcases h.front with ⟨hempty, hnext⟩ | ⟨x, hempty, hnext, -⟩
    · refine ⟨s.queueError .remove, by simp [State.call, queueRemove, hempty, Fifo.call], ?_,
        fun _ => ⟨rfl, rfl⟩⟩
      simpa [Fifo.call, hnext] using h.queueError .remove
    · refine ⟨{ s with q := { s.q with fIndex := nextIndex size s.q.fIndex } },
        by simp [State.call, queueRemove, hempty, Fifo.call], ?_, fun hne => absurd rfl hne⟩
      simpa [Fifo.call, hnext] using h.take hnext
  | get =>
    rcases h.front with ⟨hempty, hnext⟩ | ⟨x, hempty, hnext, hx⟩
    · refine ⟨s.queueError .get, by simp [State.call, queueGet, hempty, Fifo.call], ?_,
        fun _ => ⟨rfl, rfl⟩⟩
      simpa [Fifo.call, hnext] using h.queueError .get
    · have hempty' : ({ s with c := x } : State).queueEmpty = false := hempty
      have htake := h.take hnext
      refine ⟨{ s with c := x, q := { s.q with fIndex := nextIndex size s.q.fIndex } }, ?_, ?_,
        fun hne => absurd rfl hne⟩
      · simp [State.call, queueGet, queueFront, queueRemove, hempty, hempty', hx, Fifo.call]
      · simp only [Fifo.call, hnext]
        exact ⟨htake.size_le, htake.front_lt, htake.length_lt, htake.back, htake.window, rfl,
          h.console⟩
  | up c =>
    by_cases hfull : t.history.contents.length = size - 1
    · have htrue : s.queueFull size = true := by rw [h.queueFull, decide_eq_true hfull]
      refine ⟨s.queueError .up, by simp [State.call, queueUp, htrue, Fifo.call], ?_,
        fun _ => ⟨rfl, rfl⟩⟩
      simpa [Fifo.call, hfull] using h.queueError .up
    · obtain ⟨s', hup, -, hconsole, hrep⟩ := h.insert hfull c
      refine ⟨s', by rw [State.call, hup]; rfl, ?_, fun hne => absurd hconsole hne⟩
      simpa [Fifo.call, hfull] using hrep

theorem calls (h : Rep size s t) (l : List Call) :
    ∃ s', s.calls size l = some (s', (t.calls (size - 1) l).2) ∧
      Rep size s' (t.calls (size - 1) l).1 := by
  induction l generalizing s t with
  | nil => exact ⟨s, rfl, h⟩
  | cons a l ih =>
    obtain ⟨s₁, hcall, h₁, -⟩ := h.call a
    obtain ⟨s₂, hcalls, h₂⟩ := ih h₁
    exact ⟨s₂, calls_cons hcall hcalls, h₂⟩

end Rep

/-- The queue is a bounded queue of `size - 1` characters: after `queueInit`, every sequence of
calls is defined and returns, stores and prints what it does on the bounded queue, both indexes stay
within the array, `queueEmpty` and `queueFull` tell how many characters are inside, and a further
call that raises an error changes neither the queue nor `c`. -/
theorem calls_refine (size : Nat) (hsize : 1 ≤ size) (s : State) (hs : size ≤ s.q.arr.length)
    (l : List Call) :
    ∃ s' rs, s.calls size (.init :: l) = some (s', none :: rs) ∧
      let (t, out) := Fifo.calls (size - 1) ⟨.empty, s.c, s.console⟩ l
      rs = out ∧ s'.c = t.c ∧ s'.console = t.console ∧
      s'.q.fIndex < size ∧ s'.q.bIndex < size ∧ t.history.contents.length ≤ size - 1 ∧
      (s'.queueEmpty = true ↔ t.history.contents.length = 0) ∧
      (s'.queueFull size = true ↔ t.history.contents.length = size - 1) ∧
      ∀ a, ∃ s'' r, s'.call size a = some (s'', r) ∧ KeepsOnError s' s'' := by
  obtain ⟨s₁, hinit, h₁⟩ := queueInit_spec hsize hs
  obtain ⟨s₂, hcalls, h₂⟩ := h₁.calls l
  have hcall : s.call size .init = some (s₁, none) := by rw [State.call, hinit]; rfl
  refine ⟨s₂, _, calls_cons hcall hcalls, rfl, h₂.c, h₂.console, h₂.front_lt,
    h₂.back_lt, Nat.le_sub_one_of_lt h₂.length_lt, ?_, ?_, ?_⟩
  · rw [h₂.queueEmpty, decide_eq_true_iff]
  · rw [h₂.queueFull, decide_eq_true_iff]
  · intro a
    obtain ⟨s'', hcall, -, hkeep⟩ := h₂.call a
    exact ⟨s'', _, hcall, hkeep⟩

/-- In an array of three places: the third character is refused, the first two come out in order. -/
theorem calls_refine_three :
    ∃ s' rs, (⟨⟨['a', 'b', 'c'], 7, 5⟩, 'z', ⟨[], false⟩⟩ : State).calls 3
        (.init :: [.up 'x', .up 'y', .full, .up 'z', .get, .up 'w', .get, .front]) =
          some (s', none :: rs) ∧
      let (t, out) := Fifo.calls (3 - 1) ⟨.empty, 'z', ⟨[], false⟩⟩
        [.up 'x', .up 'y', .full, .up 'z', .get, .up 'w', .get, .front]
      rs = out ∧ s'.c = t.c ∧ s'.console = t.console ∧
      s'.q.fIndex < 3 ∧ s'.q.bIndex < 3 ∧ t.history.contents.length ≤ 3 - 1 ∧
      (s'.queueEmpty = true ↔ t.history.contents.length = 0) ∧
      (s'.queueFull 3 = true ↔ t.history.contents.length = 3 - 1) ∧
      ∀ a, ∃ s'' r, s'.call 3 a = some (s'', r) ∧ KeepsOnError s' s'' :=
  calls_refine 3 (by decide) ⟨⟨['a', 'b', 'c'], 7, 5⟩, 'z', ⟨[], false⟩⟩ (by decide)
    [.up 'x', .up 'y', .full, .up 'z', .get, .up 'w', .get, .front]

end State

end CharQueue
