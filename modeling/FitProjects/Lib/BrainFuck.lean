import Mathlib.Data.List.Basic
import Mathlib.Logic.Function.Basic

/-! # BrainFuck

The language with wrapping cells of `w` bits on a tape without ends: the steps of a program, one
instruction each, and the programs whose loops are not nested. A jump goes to the bracket that
matches, found by counting brackets. -/

namespace BrainFuck

/-- Every other character is `skip`. -/
inductive Instr
  | right
  | left
  | inc
  | dec
  | put
  | get
  | loop
  | endLoop
  | skip
  deriving DecidableEq

namespace Instr

def ofChar : Char → Instr
  | '>' => right
  | '<' => left
  | '+' => inc
  | '-' => dec
  | '.' => put
  | ',' => get
  | '[' => loop
  | ']' => endLoop
  | _ => skip

def isBracket : Instr → Bool
  | loop | endLoop => true
  | _ => false

end Instr

/-- `taken` counts the bytes read so far. -/
structure State (w : Nat) where
  pc : Nat
  ptr : Int
  cells : Int → BitVec w
  taken : Nat
  out : List (BitVec w)

/-- The number of instructions before the bracket that closes the loop, inside of `depth` loops. -/
def matchEnd : Nat → List Instr → Option Nat
  | _, [] => none
  | 0, .endLoop :: _ => some 0
  | depth + 1, .endLoop :: l => (matchEnd depth l).map (· + 1)
  | depth, .loop :: l => (matchEnd (depth + 1) l).map (· + 1)
  | depth, _ :: l => (matchEnd depth l).map (· + 1)

/-- The same backwards, for the bracket that opens the loop; the instruction before comes first. -/
def matchBegin : Nat → List Instr → Option Nat
  | _, [] => none
  | 0, .loop :: _ => some 0
  | depth + 1, .loop :: l => (matchBegin depth l).map (· + 1)
  | depth, .endLoop :: l => (matchBegin (depth + 1) l).map (· + 1)
  | depth, _ :: l => (matchBegin depth l).map (· + 1)

namespace State

variable {w : Nat}

/-- The cell under the pointer. -/
def cell (s : State w) : BitVec w := s.cells s.ptr

def setCell (s : State w) (v : BitVec w) : State w :=
  { s with cells := Function.update s.cells s.ptr v }

def next (s : State w) : State w := { s with pc := s.pc + 1 }

/-- One step; behind the last instruction and at a bracket without a partner nothing happens. -/
def step (code : List Instr) (input : Nat → BitVec w) (s : State w) : State w :=
  match code[s.pc]? with
  | none => s
  | some .right => { s.next with ptr := s.ptr + 1 }
  | some .left => { s.next with ptr := s.ptr - 1 }
  | some .inc => s.next.setCell (s.cell + 1)
  | some .dec => s.next.setCell (s.cell - 1)
  | some .put => { s.next with out := s.out ++ [s.cell] }
  | some .get => { s.next.setCell (input s.taken) with taken := s.taken + 1 }
  | some .loop =>
    if s.cell = 0 then
      match matchEnd 0 (code.drop (s.pc + 1)) with
      | none => s
      | some k => { s with pc := s.pc + 1 + k + 1 }
    else s.next
  | some .endLoop =>
    if s.cell = 0 then s.next else
      match matchBegin 0 (code.take s.pc).reverse with
      | none => s
      | some k => { s with pc := s.pc - 1 - k }
  | some .skip => s.next

/-- The state after `k` steps. -/
def after (code : List Instr) (input : Nat → BitVec w) (s : State w) : Nat → State w
  | 0 => s
  | k + 1 => (after code input s k).step code input

/-- Without instructions that move it the pointer stays. -/
theorem after_ptr {code : List Instr} (hright : .right ∉ code) (hleft : .left ∉ code)
    {input : Nat → BitVec w} {s : State w} : (s.after code input k).ptr = s.ptr := by
  induction k with
  | zero => rfl
  | succ k ih =>
    rw [after, ← ih]
    generalize s.after code input k = s'
    rw [step]
    split <;> try rfl
    case h_2 hi => exact absurd (List.mem_of_getElem? hi) hright
    case h_3 hi => exact absurd (List.mem_of_getElem? hi) hleft
    all_goals
      repeat' split
      all_goals rfl

/-- A loop is about to be skipped. -/
def SkipsLoop (code : List Instr) (s : State w) : Prop :=
  code[s.pc]? = some .loop ∧ s.cell = 0

/-- To skip a loop is not to enter it. -/
theorem SkipsLoop.step_pc_ne {code : List Instr} {s : State w} (h : s.SkipsLoop code)
    (input : Nat → BitVec w) : (s.step code input).pc ≠ s.pc + 1 := by
  simp only [step, h.1, h.2, if_true]
  cases matchEnd 0 (code.drop (s.pc + 1)) with
  | none => exact (Nat.succ_ne_self _).symm
  | some k =>
    change s.pc + 1 + k + 1 ≠ s.pc + 1
    omega

end State

/-! ## Loops without loops inside -/

/-- The brackets are balanced and not nested; `inLoop` tells that the code starts inside of a
loop. -/
def Unnested (inLoop : Bool) : List Instr → Prop
  | [] => inLoop = false
  | .loop :: l => inLoop = false ∧ Unnested true l
  | .endLoop :: l => inLoop = true ∧ Unnested false l
  | _ :: l => Unnested inLoop l

instance (inLoop : Bool) (l : List Instr) : Decidable (Unnested inLoop l) :=
  match l with
  | [] => inferInstanceAs (Decidable (inLoop = false))
  | i :: l =>
    match i with
    | .loop =>
      have := instDecidableUnnested true l
      inferInstanceAs (Decidable (inLoop = false ∧ Unnested true l))
    | .endLoop =>
      have := instDecidableUnnested false l
      inferInstanceAs (Decidable (inLoop = true ∧ Unnested false l))
    | .right | .left | .inc | .dec | .put | .get | .skip => instDecidableUnnested inLoop l

/-- The code ends in a loop that has begun. -/
def EndsInLoop (code : List Instr) : Prop :=
  ∃ before body, code = before ++ .loop :: body ∧ ∀ i ∈ body, i.isBracket = false

variable {code l : List Instr} {i : Instr}

theorem EndsInLoop.concat (h : EndsInLoop code) (hi : i.isBracket = false) :
    EndsInLoop (code ++ [i]) := by
  obtain ⟨before, body, rfl, hbody⟩ := h
  refine ⟨before, body ++ [i], by simp, fun j hj => ?_⟩
  rcases List.mem_append.mp hj with hj | hj
  · exact hbody j hj
  · rwa [List.mem_singleton.mp hj]

/-- What an instruction does to being inside of a loop. -/
theorem Unnested.cons (h : Unnested b (i :: l)) (hb : b = true → EndsInLoop code) :
    ∃ b', Unnested b' l ∧ (b' = true → EndsInLoop (code ++ [i])) := by
  cases i with
  | loop => exact ⟨true, h.2, fun _ => ⟨code, [], rfl, nofun⟩⟩
  | endLoop => exact ⟨false, h.2, nofun⟩
  | _ => exact ⟨b, h, fun heq => (hb heq).concat rfl⟩

theorem Unnested.append {pre : List Instr} (h : Unnested b (pre ++ l))
    (hb : b = true → EndsInLoop code) :
    ∃ b', Unnested b' l ∧ (b' = true → EndsInLoop (code ++ pre)) := by
  induction pre generalizing b code with
  | nil => exact ⟨b, h, by simpa using hb⟩
  | cons i pre ih =>
    obtain ⟨b', h', hb'⟩ := Unnested.cons h hb
    simpa using ih h' hb'

theorem matchBegin_body {body before : List Instr} (h : ∀ i ∈ body, i.isBracket = false) :
    matchBegin 0 (body ++ .loop :: before) = some body.length := by
  induction body with
  | nil => rfl
  | cons i body ih =>
    obtain ⟨hi, hbody⟩ := List.forall_mem_cons.mp h
    have ih := ih hbody
    cases i with
    | loop => cases hi
    | endLoop => cases hi
    | _ => simp [matchBegin, ih]

/-- The end of a loop: the loop begins with the last bracket before. -/
theorem Unnested.endLoop (h : Unnested false code) (hp : code[p]? = some .endLoop) :
    ∃ before body, code.take p = before ++ .loop :: body ∧
      (∀ i ∈ body, i.isBracket = false) ∧
      matchBegin 0 (code.take p).reverse = some body.length := by
  obtain ⟨hlt, hget⟩ := List.getElem?_eq_some_iff.mp hp
  have hdrop : code.drop p = .endLoop :: code.drop (p + 1) := by
    rw [List.drop_eq_getElem_cons hlt, hget]
  rw [← List.take_append_drop p code, hdrop] at h
  obtain ⟨b, hb, hin⟩ := Unnested.append h (nofun : false = true → EndsInLoop [])
  obtain ⟨before, body, htake, hbody⟩ := hin hb.1
  rw [List.nil_append] at htake
  refine ⟨before, body, htake, hbody, ?_⟩
  rw [htake, List.reverse_append, List.reverse_cons, List.append_assoc, List.singleton_append,
    matchBegin_body fun i hi => hbody i (List.mem_reverse.mp hi), List.length_reverse]

end BrainFuck
