import FitProjects.Lib.CursorList
import FitProjects.Lib.Heap

/-! # Calls of the list modules

The calls of the two list modules of `IAL`, named after the functions without the prefix `DL`. A
call that allocates carries the outcome of its `malloc`, of type `μ`. `CursorList.call` is the
abstract list that both modules implement: a list with a cursor and the error flag. -/

/-- One call of a list module. -/
inductive ListCall (μ : Type)
  | initList
  | disposeList
  | insertFirst (val : Int) (malloc : μ)
  | insertLast (val : Int) (malloc : μ)
  | first
  | last
  | copyFirst
  | copyLast
  | deleteFirst
  | deleteLast
  | postDelete
  | preDelete
  | postInsert (val : Int) (malloc : μ)
  | preInsert (val : Int) (malloc : μ)
  | copy
  | actualize (val : Int)
  | succ
  | pred
  | active

namespace ListCall

variable {μ ν : Type}

/-- The same call with other outcomes of `malloc`. -/
def map (f : μ → ν) : ListCall μ → ListCall ν
  | initList => initList
  | disposeList => disposeList
  | insertFirst val m => insertFirst val (f m)
  | insertLast val m => insertLast val (f m)
  | first => first
  | last => last
  | copyFirst => copyFirst
  | copyLast => copyLast
  | deleteFirst => deleteFirst
  | deleteLast => deleteLast
  | postDelete => postDelete
  | preDelete => preDelete
  | postInsert val m => postInsert val (f m)
  | preInsert val m => preInsert val (f m)
  | copy => copy
  | actualize val => actualize val
  | succ => succ
  | pred => pred
  | active => active

/-- The outcome of the `malloc` of a call. -/
def malloc? : ListCall μ → Option μ
  | insertFirst _ m | insertLast _ m | postInsert _ m | preInsert _ m => some m
  | _ => none

/-- The calls that the singly linked list has too. -/
def Shared : ListCall μ → Prop
  | insertLast .. | last | copyLast | deleteLast | preDelete | preInsert .. | pred => False
  | _ => True

theorem shared_map (f : μ → ν) {c : ListCall μ} (h : c.Shared) : (c.map f).Shared := by
  cases c <;> trivial

end ListCall

/-- The global variables: `errflg`, and how many error messages were printed. -/
structure ErrorState where
  errflg : Bool
  errors : Nat
  deriving DecidableEq

/-- `Error` and `DLError`: one message is printed and `errflg` is set. -/
def ErrorState.raise (err : ErrorState) : ErrorState := ⟨true, err.errors + 1⟩

/-- What a caller sees of a call: the value stored through the pointer argument (none when the call
leaves it alone), the result of the function, and the error state afterwards. -/
structure Reply where
  val : Option Int
  result : Option Bool
  err : ErrorState
  deriving DecidableEq

namespace CursorList

/-- The abstract list with the error state. -/
structure State where
  list : CursorList Int
  err : ErrorState

namespace State

variable (s : State)

/-- The call changes the list and reports nothing. -/
def update (list : CursorList Int) : State × Reply := ({ s with list }, ⟨none, none, s.err⟩)

/-- The call leaves the list alone and raises the error. -/
def raise : State × Reply := ({ s with err := s.err.raise }, ⟨none, none, s.err.raise⟩)

/-- The call stores a value, or raises the error where there is none. -/
def store : Option Int → State × Reply
  | none => s.raise
  | some v => (s, ⟨some v, none, s.err⟩)

/-- One call on the abstract list; the `malloc` of a call succeeds or fails. -/
def call : ListCall Bool → State × Reply
  | .initList | .disposeList => s.update (inactive [])
  | .insertFirst val malloc => if malloc then s.update (s.list.insertFirst val) else s.raise
  | .insertLast val malloc => if malloc then s.update (s.list.insertLast val) else s.raise
  | .first => s.update s.list.first
  | .last => s.update s.list.last
  | .copyFirst => s.store s.list.toList.head?
  | .copyLast => s.store s.list.toList.getLast?
  | .deleteFirst => s.update s.list.deleteFirst
  | .deleteLast => s.update s.list.deleteLast
  | .postDelete => s.update s.list.postDelete
  | .preDelete => s.update s.list.preDelete
  | .postInsert val malloc =>
    if s.list.current?.isNone then s.update s.list
    else if malloc then s.update (s.list.postInsert val) else s.raise
  | .preInsert val malloc =>
    if s.list.current?.isNone then s.update s.list
    else if malloc then s.update (s.list.preInsert val) else s.raise
  | .copy => s.store s.list.current?
  | .actualize val => s.update (s.list.actualize fun _ => val)
  | .succ => s.update s.list.succ
  | .pred => s.update s.list.pred
  | .active => (s, ⟨none, some s.list.current?.isSome, s.err⟩)

/-- A sequence of calls, with the replies. -/
def run (s : State) : List (ListCall Bool) → State × List Reply
  | [] => (s, [])
  | c :: calls =>
    let (s', r) := s.call c
    let (s'', rs) := run s' calls
    (s'', r :: rs)

end State
end CursorList

/-- A module that implements the calls on states of type `σ`, with elements of type `ε` on the
heap. `call` fails on an access through a null or dangling pointer. The outcome of `malloc` is
`none`, or the address of the new element and what the fresh memory happens to hold. -/
structure ListModule (σ ε : Type) where
  heap : σ → Heap ε
  err : σ → ErrorState
  call : σ → ListCall (Option (Addr × ε)) → Option (σ × Reply)

namespace ListModule

variable {σ ε : Type} (M : ListModule σ ε)

/-- A sequence of calls, with the replies. -/
def run (s : σ) : List (ListCall (Option (Addr × ε))) → Option (σ × List Reply)
  | [] => some (s, [])
  | c :: calls => do
    let (s, r) ← M.call s c
    let (s, rs) ← run s calls
    some (s, r :: rs)

/-- The address that the `malloc` of a call returns is not in use. -/
def allocates (s : σ) (c : ListCall (Option (Addr × ε))) : Bool :=
  match c.malloc? with
  | some (some (item, _)) => ((M.heap s).get? item).isNone
  | _ => true

/-- `malloc` keeps to this along a sequence of calls. -/
def allocatesAll (s : σ) : List (ListCall (Option (Addr × ε))) → Bool
  | [] => true
  | c :: calls => M.allocates s c && (M.call s c).all fun (s', _) => allocatesAll s' calls

/-- The memory represents the abstract list and the error states agree. -/
def Simulates (Rep : σ → CursorList (Addr × Int) → Prop) (s : σ) (t : CursorList.State) : Prop :=
  ∃ l, Rep s l ∧ t = ⟨l.map Prod.snd, M.err s⟩

variable {M} {Rep : σ → CursorList (Addr × Int) → Prop} {s : σ} {t : CursorList.State}
  {l : CursorList (Addr × Int)} {l' : CursorList Int} {o : Option σ}

/-- The simulation step of a call that changes the list. -/
theorem simulates_update (h : ∃ s', o = some s' ∧ M.err s' = t.err ∧ Rep s' l)
    (hl : l.map Prod.snd = l') :
    ∃ s', (o.map fun s => (s, ⟨none, none, M.err s⟩)) = some (s', (t.update l').2) ∧
      M.Simulates Rep s' (t.update l').1 := by
  obtain ⟨s', rfl, herr, hrep⟩ := h
  subst hl
  exact ⟨s', by simp [CursorList.State.update, herr], l, hrep,
    by simp [CursorList.State.update, herr]⟩

/-- The simulation step of a call that raises the error; `s'` is `s` after it. -/
theorem simulates_raise {s' : σ} (h : Rep s' l) (herr : M.err s' = t.err.raise)
    (ht : t.list = l.map Prod.snd) :
    ∃ s'', some (s', (⟨none, none, M.err s'⟩ : Reply)) = some (s'', t.raise.2) ∧
      M.Simulates Rep s'' t.raise.1 :=
  ⟨s', by simp [CursorList.State.raise, herr], l, h, by simp [CursorList.State.raise, herr, ht]⟩

/-- The simulation step of a call that stores a value or raises the error. -/
theorem simulates_store {o : Option (σ × Option Int)} {x? : Option (Addr × Int)} {v? : Option Int}
    {s' : σ} (h : Rep s l) (h' : Rep s' l) (herr : M.err s' = (M.err s).raise)
    (ho : o = some (match x? with
      | none => (s', none)
      | some x => (s, some x.2))) (hv : v? = x?.map Prod.snd) :
    ∃ s'', (o.map fun (s, val) => (s, ⟨val, none, M.err s⟩)) =
        some (s'', (CursorList.State.store ⟨l.map Prod.snd, M.err s⟩ v?).2) ∧
      M.Simulates Rep s'' (CursorList.State.store ⟨l.map Prod.snd, M.err s⟩ v?).1 := by
  subst ho hv
  cases x? with
  | none => exact simulates_raise h' herr rfl
  | some x => exact ⟨s, rfl, l, h, rfl⟩

/-- A simulation of single calls is one of runs. -/
theorem run_of_simulates {P : ListCall (Option (Addr × ε)) → Prop}
    (hcall : ∀ {s t c}, M.Simulates Rep s t → P c → M.allocates s c →
      ∃ s', M.call s c = some (s', (t.call (c.map Option.isSome)).2) ∧
        M.Simulates Rep s' (t.call (c.map Option.isSome)).1)
    {calls : List (ListCall (Option (Addr × ε)))} (h : M.Simulates Rep s t)
    (hP : ∀ c ∈ calls, P c) (hc : M.allocatesAll s calls) :
    ∃ s', M.run s calls = some (s', (t.run (calls.map (·.map Option.isSome))).2) ∧
      M.Simulates Rep s' (t.run (calls.map (·.map Option.isSome))).1 := by
  induction calls generalizing s t with
  | nil => exact ⟨s, rfl, h⟩
  | cons c calls ih =>
    rw [allocatesAll, Bool.and_eq_true] at hc
    rw [List.forall_mem_cons] at hP
    obtain ⟨s₁, hcall₁, h₁⟩ := hcall h hP.1 hc.1
    obtain ⟨s₂, hrun, h₂⟩ := ih h₁ hP.2 (by simpa [hcall₁] using hc.2)
    exact ⟨s₂, by simp [run, hcall₁, hrun, CursorList.State.run], h₂⟩

end ListModule
