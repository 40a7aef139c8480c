import FitProjects.POS.ShellProgram
import Mathlib.Data.List.Infix

/-! # The room for the arguments

`pushArgument` compares `argc` with `maxArgc + 1` where `maxArgc` pointers are allocated and
`argc + 1` are in use. A block of four is full with three arguments, and the fourth one is written
without growing it: `args[4]` is behind its end. No line gets as far as the sixth, where the block
would grow. -/

namespace Shell

/-- The program holds the command in the block that `execWorker` has allocated. -/
structure Program.Holds (p : Program) (q : Command) : Prop extends p.Shows q where
  length : p.args.length = defaultArgc
  maxArgc : p.maxArgc = defaultArgc

def Update.isPushArgument : Update → Bool
  | .pushArgument _ _ => true
  | _ => false

/-- The number of arguments that `parseBuffer` pushes for the line in the buffer. -/
def argumentCount (buffer : List UInt8) : Nat :=
  (updates (cstring buffer)).countP Update.isPushArgument

/-- The lines that `execWorker` runs, one after the other. -/
def Program.execLines (p : Program) (lines : List (List UInt8)) : Option Program :=
  lines.foldlM Program.execLine p

namespace Program

variable {p p' : Program} {q : Command} {line buffer arg : List UInt8}

theorem init_holds : init.Holds .empty :=
  { argc := rfl, args := by decide, input := rfl, output := rfl, bg := rfl, length := rfl,
    maxArgc := rfl }

/-- The null pointer of a command that is held has its place. -/
theorem Holds.args_lt (h : p.Holds q) : q.args.length < defaultArgc := by
  have hle := h.args.length_le
  rw [h.length, List.length_append, List.length_map] at hle
  exact hle

/-- The block does not grow while the arguments fit. -/
theorem Holds.grow (h : p.Holds q) :
    Program.grow { p with argc := p.argc + 1 } = { p with argc := p.argc + 1 } := by
  refine if_neg ?_
  have hlt := h.args_lt
  simp only [h.argc, h.maxArgc]
  omega

theorem Holds.pushArgument (h : p.Holds q) (hq : q.args.length + 1 < defaultArgc) :
    ∃ p', p.pushArgument arg = some p' ∧ p'.Holds { q with args := q.args ++ [arg] } := by
  have hroom : HasRoom { p with argc := p.argc + 1 } := by
    simp only [HasRoom, h.argc, h.length]
    omega
  refine ⟨_, by rw [Program.pushArgument, h.grow, if_pos hroom], ?_⟩
  obtain ⟨cells, hcells⟩ := h.args
  have hlength := h.length
  rw [← hcells, List.length_append, List.length_append, List.length_map,
    List.length_singleton] at hlength
  obtain ⟨old, cells, rfl⟩ := List.exists_cons_of_length_pos (l := cells) (by omega)
  exact
    { argc := by simp [h.argc]
      args := ⟨cells, by simp [h.argc, ← hcells]⟩
      input := h.input
      output := h.output
      bg := h.bg
      length := by simp [h.length]
      maxArgc := h.maxArgc }

/-- The fourth argument is written outside of the block. -/
theorem Holds.pushArgument_eq_none (h : p.Holds q) (hq : defaultArgc ≤ q.args.length + 1) :
    p.pushArgument arg = none := by
  rw [Program.pushArgument, h.grow]
  refine if_neg fun hroom => ?_
  have hlt := hroom.2
  simp only [h.argc, h.length] at hlt
  omega

/-- Any update finds its room, or it is an argument too many. -/
theorem Holds.update (h : p.Holds q) (line : List UInt8) (u : Update) :
    (∃ p', p.update line u = some p' ∧ p'.Holds (q.update line u)) ∨
      p.update line u = none ∧ defaultArgc ≤ (q.update line u).args.length := by
  cases u with
  | setBg => exact .inl ⟨_, rfl, { h with bg := rfl }⟩
  | saveInput startPos endPos => exact .inl ⟨_, rfl, { h with input := rfl }⟩
  | saveOutput startPos endPos => exact .inl ⟨_, rfl, { h with output := rfl }⟩
  | pushArgument startPos endPos =>
    by_cases hq : q.args.length + 1 < defaultArgc
    · exact .inl (h.pushArgument hq)
    · refine .inr ⟨h.pushArgument_eq_none (Nat.le_of_not_lt hq), ?_⟩
      simpa [Command.update] using hq

end Program

namespace Command

variable {q : Command} {line : List UInt8}

theorem args_update (q : Command) (line : List UInt8) (u : Update) :
    (q.update line u).args.length = q.args.length + if u.isPushArgument then 1 else 0 := by
  cases u <;> simp [update, Update.isPushArgument]

/-- The arguments of the command are as many as are pushed. -/
theorem args_foldl (us : List Update) (q : Command) (line : List UInt8) :
    (us.foldl (update line) q).args.length = q.args.length + us.countP Update.isPushArgument := by
  induction us generalizing q with
  | nil => rfl
  | cons u us ih =>
    rw [List.foldl_cons, ih, args_update, List.countP_cons]
    omega

theorem args_scanned (buffer : List UInt8) :
    (scanned (cstring buffer)).args.length = argumentCount buffer :=
  (args_foldl _ empty _).trans (Nat.zero_add _)

end Command

namespace Program

variable {p p' : Program} {q : Command} {line buffer : List UInt8}

/-- Updates are carried out as long as there are not too many arguments. -/
theorem Holds.updates (h : p.Holds q) (line : List UInt8) (us : List Update) :
    (∃ p', us.foldlM (Program.update line) p = some p' ∧
        p'.Holds (us.foldl (Command.update line) q)) ∨
      us.foldlM (Program.update line) p = none ∧
        defaultArgc ≤ (us.foldl (Command.update line) q).args.length := by
  induction us generalizing p q with
  | nil => exact .inl ⟨p, rfl, h⟩
  | cons u us ih =>
    rw [List.foldlM_cons, List.foldl_cons]
    rcases h.update line u with ⟨p', hp', h'⟩ | ⟨hnone, hle⟩
    · rw [hp']
      exact ih h'
    · rw [hnone, Command.args_foldl]
      exact .inr ⟨rfl, Nat.le_add_right_of_le hle⟩

/-- A line of few arguments is parsed to what the scanner reads from it. -/
theorem Holds.parseBuffer (h : p.Holds .empty) (hq : argumentCount buffer < defaultArgc) :
    ∃ p', p.parseBuffer buffer = some p' ∧ p'.Holds (.scanned (cstring buffer)) := by
  rcases h.updates (cstring buffer) (Shell.updates (cstring buffer)) with hp | ⟨-, hle⟩
  · exact hp
  · have hcount : defaultArgc ≤ argumentCount buffer := Command.args_scanned buffer ▸ hle
    omega

/-- The parser leaves the block at a line of too many arguments. -/
theorem Holds.parseBuffer_eq_none (h : p.Holds .empty) (hq : defaultArgc ≤ argumentCount buffer) :
    p.parseBuffer buffer = none := by
  obtain ⟨p', -, hp'⟩ | ⟨hnone, -⟩ :=
    h.updates (cstring buffer) (Shell.updates (cstring buffer))
  · have hlt := hp'.args_lt
    have hcount := Command.args_scanned buffer
    rw [Command.scanned] at hcount
    omega
  · exact hnone

/-! ## Line after line -/

theorem freeArgs_append (args : List (List UInt8)) (cells : List Cell) :
    freeArgs (args.map .str ++ .null :: cells) =
      some (List.replicate args.length .dangling ++ .null :: cells) := by
  induction args with
  | nil => rfl
  | cons arg args ih =>
    rw [List.map_cons, List.cons_append, freeArgs, ih]
    rfl

/-- `clearProgram` finds the null pointer behind the arguments. -/
theorem Holds.clearProgram (h : p.Holds q) : ∃ p', p.clearProgram = some p' ∧ p'.Holds .empty := by
  obtain ⟨cells, hcells⟩ := h.args
  rw [List.append_assoc, List.singleton_append] at hcells
  have hfree := freeArgs_append q.args cells
  rw [hcells] at hfree
  refine ⟨_, by rw [Program.clearProgram, hfree]; rfl, ?_⟩
  have hlength := h.length
  rw [← hcells] at hlength
  refine
    { argc := rfl, args := ?_, input := rfl, output := rfl, bg := rfl, length := ?_,
      maxArgc := h.maxArgc }
  · cases q.args <;> simp [Command.empty, List.replicate_succ]
  · simpa using hlength

/-- A line of few arguments leaves the program as it found it. -/
theorem Holds.execLine (h : p.Holds .empty) (hq : argumentCount buffer < defaultArgc) :
    ∃ p', p.execLine buffer = some p' ∧ p'.Holds .empty := by
  obtain ⟨p', hp', h'⟩ := h.parseBuffer hq
  rw [Program.execLine, hp']
  exact h'.clearProgram

theorem Holds.execLines (h : p.Holds .empty) (lines : List (List UInt8)) :
    (p.execLines lines).isSome ↔ ∀ line ∈ lines, argumentCount line < defaultArgc := by
  induction lines generalizing p with
  | nil => simp [Program.execLines]
  | cons line lines ih =>
    rw [List.forall_mem_cons, Program.execLines, List.foldlM_cons]
    by_cases hq : argumentCount line < defaultArgc
    · obtain ⟨p', hp', h'⟩ := h.execLine hq
      rw [hp']
      exact (ih h').trans (and_iff_right hq).symm
    · rw [Program.execLine, h.parseBuffer_eq_none (Nat.le_of_not_lt hq)]
      simp [hq]

/-- The program before each line of a run. -/
theorem Holds.of_execLines (h : p.Holds .empty) {lines : List (List UInt8)}
    (hrun : p.execLines lines = some p') : p'.Holds .empty := by
  induction lines generalizing p with
  | nil => exact Option.some.inj hrun ▸ h
  | cons line lines ih =>
    have hcount := (h.execLines (line :: lines)).mp (by rw [hrun]; rfl)
    obtain ⟨p₁, hp₁, h₁⟩ := h.execLine (hcount line List.mem_cons_self)
    rw [Program.execLines, List.foldlM_cons, hp₁] at hrun
    exact ih h₁ hrun

end Program

/-- All accesses to `args` are to allocated and initialised pointers exactly when no line has more
than three arguments. -/
theorem execLines_isSome_iff (lines : List (List UInt8)) :
    (Program.init.execLines lines).isSome ↔ ∀ line ∈ lines, argumentCount line < defaultArgc :=
  Program.init_holds.execLines lines

/-- `a b c d`. -/
theorem execLines_four_arguments :
    ¬ (Program.init.execLines [[97, 32, 98, 32, 99, 32, 100, 0]]).isSome := by decide

end Shell
