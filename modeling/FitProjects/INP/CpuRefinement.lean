import FitProjects.Lib.BrainFuck
import FitProjects.INP.Cpu
import Mathlib.Tactic.Push

/-! # The processor and the language

While an instruction is executed, the board is ahead of the language by the registers that the
states of the instruction have set already. `Phase` says for every state which ones these are. The
comparison breaks at one place: `sWhileB1` tests the byte that was fetched, not the cell, so no loop
is ever skipped. -/

namespace Cpu

open BrainFuck (Instr Unnested matchBegin)

/-- The instructions of a program. -/
def code (prog : List Byte) : List Instr := prog.map fun v => .ofChar (Char.ofNat v.toNat)

/-- The byte at `p`, zero at the end. -/
def byteAt (prog : List Byte) (p : Nat) : Byte := prog[p]?.getD 0

/-- The programs that the processor is made for. -/
structure Supported (prog : List Byte) : Prop where
  length_lt : prog.length < 4096
  nonzero : 0 ∉ prog
  unnested : Unnested false (code prog)

/-- The program lies in the memory from address 0, with a zero byte behind it. -/
def Stored (prog : List Byte) (ram : Address → Byte) : Prop :=
  ∀ p ≤ prog.length, ram (BitVec.ofNat 13 p) = byteAt prog p

/-- The addresses of the cells. -/
def InRange (ptr : Int) : Prop := 0x1000 ≤ ptr ∧ ptr ≤ 0x1FFF

/-- The state of the language that a board starts in: its memory holds the tape. -/
def start (b : Board) : BrainFuck.State 8 :=
  { pc := 0, ptr := 0x1000, cells := fun a => b.ram (BitVec.ofInt 13 a), taken := 0, out := [] }

/-- What the board and the language share between two instructions. -/
structure Agrees (b : Board) (s : BrainFuck.State 8) : Prop where
  pc : b.pcReg.toNat = s.pc
  ptr : (b.ptrReg.toNat : Int) = s.ptr
  cells : ∀ a : Address, 0x1000 ≤ a.toNat → b.ram a = s.cells a.toNat
  out : b.written = s.out

/-- Whenever the processor fetches an instruction, the board agrees with the language after as many
steps as instructions have been completed. -/
def Refines (prog : List Byte) (input : Nat → Byte) (vld busy : Nat → Bool) (b : Board) : Prop :=
  ∀ t, (b.run input vld busy t).presentState = .sfetch →
    Agrees (b.run input vld busy t)
      ((start b).after (code prog) input (b.fetches input vld busy t))

variable {prog : List Byte} {input : Nat → Byte} {vld busy : Bool} {b : Board}
  {s : BrainFuck.State 8} {i : Instr} {p q : Nat}

/-! ## Decoding -/

/-- What the decoder makes of an instruction. -/
def Instructions.ofInstr : Instr → Instructions
  | .right => .incPtr
  | .left => .decPtr
  | .inc => .incValue
  | .dec => .decValue
  | .put => .putchar
  | .get => .getchar
  | .loop => .whileB
  | .endLoop => .whileE
  | .skip => .nop

theorem iregDec_eq {v : Byte} (hv : v ≠ 0) :
    iregDec v = .ofInstr (.ofChar (Char.ofNat v.toNat)) := by
  have hall : ∀ n < 256, n ≠ 0 →
      iregDec (BitVec.ofNat 8 n) = .ofInstr (.ofChar (Char.ofNat n)) := by
    decide +kernel
  have hne : v.toNat ≠ 0 := fun h0 => hv (BitVec.eq_of_toNat_eq h0)
  simpa using hall v.toNat v.isLt hne

theorem Supported.iregDec_byteAt (h : Supported prog) (p : Nat) :
    iregDec (byteAt prog p) = ((code prog)[p]?.map .ofInstr).getD .halt := by
  rw [byteAt, code, List.getElem?_map]
  cases hp : prog[p]? with
  | none => rfl
  | some v => exact iregDec_eq fun h0 => h.nonzero (h0 ▸ List.mem_of_getElem? hp)

theorem byteAt_ne_zero (h : Supported prog) (hi : (code prog)[p]? = some i) :
    byteAt prog p ≠ 0 := by
  intro h0
  have hdec := h.iregDec_byteAt p
  rw [h0, hi] at hdec
  cases i <;> cases hdec

theorem lt_of_code (hi : (code prog)[p]? = some i) : p < prog.length := by
  simpa [code] using (List.getElem?_eq_some_iff.mp hi).1

/-! ## The states of an instruction -/

/-- The board agrees with the language but for the program counter. -/
structure Data (prog : List Byte) (b : Board) (s : BrainFuck.State 8) : Prop where
  pc_le : s.pc ≤ prog.length
  ptr : (b.ptrReg.toNat : Int) = s.ptr
  cells : ∀ a : Address, 0x1000 ≤ a.toNat → b.ram a = s.cells a.toNat
  taken : b.taken = s.taken
  out : b.written = s.out
  stored : Stored prog b.ram

/-- On the way back to the beginning of a loop, at `q`. -/
def Scans (prog : List Byte) (s : BrainFuck.State 8) (q : Nat) : Prop :=
  ∃ before body, (code prog).take s.pc = before ++ .loop :: body ∧
    (∀ i ∈ body, i.isBracket = false) ∧
    matchBegin 0 ((code prog).take s.pc).reverse = some body.length ∧
    before.length ≤ q ∧ q ≤ before.length + body.length

/-- The program counter is that of the language, at the instruction `i`. -/
def Executes (prog : List Byte) (b : Board) (s : BrainFuck.State 8) (i : Instr) : Prop :=
  b.pcReg.toNat = s.pc ∧ (code prog)[s.pc]? = some i

/-- How the registers relate to a state of the language before the instruction that is executed. -/
def Phase (prog : List Byte) (b : Board) (s : BrainFuck.State 8) : FsmState → Prop
  | .sidle | .sfetch => b.pcReg.toNat = s.pc
  | .sdecode => b.pcReg.toNat = s.pc ∧ b.dataRdata = byteAt prog s.pc
  | .sIncPtr => Executes prog b s .right
  | .sDecPtr => Executes prog b s .left
  | .sIncValue1 => Executes prog b s .inc
  | .sIncValue2 => Executes prog b s .inc ∧ b.dataRdata = s.cell
  | .sDecValue1 => Executes prog b s .dec
  | .sDecValue2 => Executes prog b s .dec ∧ b.dataRdata = s.cell
  | .sPutChar1 => Executes prog b s .put
  | .sPutChar2 => Executes prog b s .put ∧ b.dataRdata = s.cell
  | .sGetChar1 | .sGetChar2 => Executes prog b s .get
  | .sWhileB1 => Executes prog b s .loop ∧ b.dataRdata ≠ 0
  | .sWhileB2 | .sWhileB3 | .sWhileB4 => False
  | .sWhileE1 => Executes prog b s .endLoop
  | .sWhileE2 => Executes prog b s .endLoop ∧ b.dataRdata = s.cell ∧ b.dataRdwr = false
  | .sWhileE3 => (code prog)[s.pc]? = some .endLoop ∧ s.cell ≠ 0 ∧ b.dataRdwr = false ∧
    Scans prog s b.pcReg.toNat
  | .sWhileE4 => (code prog)[s.pc]? = some .endLoop ∧ s.cell ≠ 0 ∧ b.dataRdwr = false ∧
    Scans prog s b.pcReg.toNat ∧ b.dataRdata = byteAt prog b.pcReg.toNat
  | .sNop => Executes prog b s .skip
  | .shalt => True

/-- The board is at, or in the middle of, the instruction that the language is at. -/
def Sim (prog : List Byte) (b : Board) (s : BrainFuck.State 8) : Prop :=
  Data prog b s ∧ Phase prog b s b.presentState

/-- The states between two instructions. -/
def FsmState.resting : FsmState → Bool
  | sidle | sfetch => true
  | _ => false

theorem Sim.agrees (h : Sim prog b s) (hr : b.presentState.resting = true) : Agrees b s := by
  obtain ⟨hd, hp⟩ := h
  have hpc : b.pcReg.toNat = s.pc := by
    cases hst : b.presentState <;> rw [hst] at hp hr <;> first | exact hp | cases hr
  exact ⟨hpc, hd.ptr, hd.cells, hd.out⟩

/-- A byte of the program is read. -/
theorem Data.ram_pc (h : Data prog b s) (hq : b.pcReg.toNat ≤ prog.length) :
    b.ram b.pcReg = byteAt prog b.pcReg.toNat := by
  have hbyte := h.stored b.pcReg.toNat hq
  rwa [BitVec.ofNat_toNat, BitVec.setWidth_eq] at hbyte

/-- The cell is read. -/
theorem Data.ram_ptr (h : Data prog b s) (hr : InRange s.ptr) : b.ram b.ptrReg = s.cell := by
  have hcell := h.cells b.ptrReg (by have := h.ptr; have := hr.1; omega)
  rwa [h.ptr] at hcell

theorem toNat_inc {a : Address} (h : a.toNat + 1 < 8192) : (a + 1).toNat = a.toNat + 1 := by
  rw [BitVec.toNat_add]
  exact Nat.mod_eq_of_lt h

theorem toNat_dec {a : Address} (h : 0 < a.toNat) : (a - 1).toNat = a.toNat - 1 := by
  have := a.isLt
  rw [BitVec.toNat_sub]
  change (2 ^ 13 - 1 + a.toNat) % 2 ^ 13 = a.toNat - 1
  omega

/-! ## Jumps back -/

theorem Scans.of_endLoop (h : Supported prog) (hi : (code prog)[s.pc]? = some .endLoop) :
    0 < s.pc ∧ Scans prog s (s.pc - 1) := by
  obtain ⟨before, body, htake, hbody, hmatch⟩ := h.unnested.endLoop hi
  have hlen := congrArg List.length htake
  have hlt := (List.getElem?_eq_some_iff.mp hi).1
  rw [List.length_take, List.length_append, List.length_cons] at hlen
  exact ⟨by omega, before, body, htake, hbody, hmatch, by omega, by omega⟩

/-- What is found on the way back: the beginning of the loop at the end of the way. -/
theorem Scans.code_eq (hs : Scans prog s q) (hi : (code prog)[s.pc]? = some .endLoop) :
    q < s.pc ∧ ∃ before body, (∀ i ∈ body, i.isBracket = false) ∧
      matchBegin 0 ((code prog).take s.pc).reverse = some body.length ∧
      s.pc = before + 1 + body.length ∧ before ≤ q ∧
      (code prog)[q]? = (Instr.loop :: body)[q - before]? := by
  obtain ⟨before, body, htake, hbody, hmatch, hle, hle'⟩ := hs
  have hlen := congrArg List.length htake
  have hlt := (List.getElem?_eq_some_iff.mp hi).1
  rw [List.length_take, List.length_append, List.length_cons] at hlen
  refine ⟨by omega, before.length, body, hbody, hmatch, by omega, hle, ?_⟩
  rw [← List.getElem?_append_right hle, ← htake, List.getElem?_take_of_lt (by omega)]

/-- At the beginning of the loop the jump is done. -/
theorem Scans.step_eq (hs : Scans prog s q) (hi : (code prog)[s.pc]? = some .endLoop)
    (hcell : s.cell ≠ 0) (hq : (code prog)[q]? = some .loop) (input : Nat → Byte) :
    s.step (code prog) input = { s with pc := q } := by
  obtain ⟨-, before, body, hbody, hmatch, hpc, hle, hcode⟩ := hs.code_eq hi
  have hq0 : q = before := by
    by_contra hne
    obtain ⟨m, hm⟩ := Nat.exists_eq_add_of_lt (Nat.lt_of_le_of_ne hle (Ne.symm hne))
    rw [hq, show q - before = m + 1 by omega, List.getElem?_cons_succ] at hcode
    have hbr := hbody _ (List.mem_of_getElem? hcode.symm)
    cases hbr
  simp only [BrainFuck.State.step, hi, hcell, if_false, hmatch]
  rw [show s.pc - 1 - body.length = q by omega]

/-- Elsewhere it goes on with the instruction before. -/
theorem Scans.back (hs : Scans prog s q) (hi : (code prog)[s.pc]? = some .endLoop)
    (hq : (code prog)[q]? ≠ some .loop) : 0 < q ∧ Scans prog s (q - 1) := by
  obtain ⟨before, body, htake, hbody, hmatch, hle, hle'⟩ := hs
  have hlt := (List.getElem?_eq_some_iff.mp hi).1
  have hlen := congrArg List.length htake
  rw [List.length_take, List.length_append, List.length_cons] at hlen
  have hne : q ≠ before.length := by
    intro heq
    apply hq
    have hget : ((code prog).take s.pc)[before.length]? = some .loop := by
      rw [htake, List.getElem?_append_right (Nat.le_refl _), Nat.sub_self]
      rfl
    rwa [heq, ← List.getElem?_take_of_lt (j := s.pc) (by omega)]
  exact ⟨by omega, before, body, htake, hbody, hmatch, by omega, by omega⟩

/-! ## One clock -/

/-- Between two instructions the language waits. -/
theorem Sim.clock_resting (input : Nat → Byte) (vld busy : Bool) (hs : Sim prog b s)
    (hr : b.presentState.resting = true) :
    (b.clock (b.inputs input vld busy)).presentState =
        (if b.presentState = .sfetch then .sdecode else .sfetch) ∧
      Sim prog (b.clock (b.inputs input vld busy)) s := by
  obtain ⟨hd, hp⟩ := hs
  have hle := hd.pc_le
  cases hst : b.presentState <;> rw [hst] at hp hr <;> try cases hr
  case sidle =>
    have hc : b.clock (b.inputs input vld busy) = { b with presentState := .sfetch } := by
      simp [Board.clock, Board.inputs, fsmNextstate, hst, count]
    rw [hc]
    exact ⟨rfl, ⟨hd.pc_le, hd.ptr, hd.cells, hd.taken, hd.out, hd.stored⟩, hp⟩
  case sfetch =>
    have hpc : b.pcReg.toNat = s.pc := hp
    have hc : b.clock (b.inputs input vld busy) =
        { b with
          presentState := .sdecode
          dataRdwr := false
          dataRdata := b.ram b.pcReg } := by
      simp [Board.clock, Board.inputs, fsmNextstate, hst, count, Board.dataAddr]
    rw [hc]
    refine ⟨rfl, ⟨hd.pc_le, hd.ptr, hd.cells, hd.taken, hd.out, hd.stored⟩, hpc, ?_⟩
    change b.ram b.pcReg = _
    rw [hd.ram_pc (hpc ▸ hle), hpc]

/-- The state after decoding. -/
def FsmState.ofInstr : Option Instr → FsmState
  | none => shalt
  | some .right => sIncPtr
  | some .left => sDecPtr
  | some .inc => sIncValue1
  | some .dec => sDecValue1
  | some .put => sPutChar1
  | some .get => sGetChar1
  | some .loop => sWhileB1
  | some .endLoop => sWhileE1
  | some .skip => sNop

theorem Sim.clock_decode (input : Nat → Byte) (vld busy : Bool) (h : Supported prog)
    (hs : Sim prog b s) (hst : b.presentState = .sdecode) :
    (b.clock (b.inputs input vld busy)).presentState = .ofInstr (code prog)[s.pc]? ∧
      Sim prog (b.clock (b.inputs input vld busy)) s := by
  obtain ⟨hd, hp⟩ := hs
  rw [hst] at hp
  obtain ⟨hpc, hbyte⟩ : b.pcReg.toNat = s.pc ∧ b.dataRdata = byteAt prog s.pc := hp
  have hdec := h.iregDec_byteAt s.pc
  rw [← hbyte] at hdec
  have hc : b.clock (b.inputs input vld busy) =
      { b with presentState := .ofInstr (code prog)[s.pc]? } := by
    cases hi : (code prog)[s.pc]? with
    | none =>
      rw [hi] at hdec
      simp [Board.clock, Board.inputs, fsmNextstate, hst, hdec, count, FsmState.ofInstr]
    | some i =>
      rw [hi] at hdec
      cases i <;> simp [Board.clock, Board.inputs, fsmNextstate, hst, hdec, count,
        FsmState.ofInstr, Instructions.ofInstr]
  rw [hc]
  refine ⟨rfl, ⟨hd.pc_le, hd.ptr, hd.cells, hd.taken, hd.out, hd.stored⟩, ?_⟩
  cases hi : (code prog)[s.pc]? with
  | none => trivial
  | some i =>
    cases i
    case loop => exact ⟨⟨hpc, hi⟩, hbyte ▸ byteAt_ne_zero h hi⟩
    all_goals exact ⟨hpc, hi⟩

/-- In the middle of an instruction the language waits; at its end it makes its step. -/
def Follows (prog : List Byte) (input : Nat → Byte) (c : Board) (s : BrainFuck.State 8) : Prop :=
  Sim prog c (if c.presentState.resting then s.step (code prog) input else s)

/-- The board after a clock that reads the cell. -/
def Board.reads (b : Board) (st : FsmState) : Board :=
  { b with presentState := st, dataRdwr := false, dataRdata := b.ram b.ptrReg }

theorem Data.reads (hd : Data prog b s) (st : FsmState) : Data prog (b.reads st) s :=
  ⟨hd.pc_le, hd.ptr, hd.cells, hd.taken, hd.out, hd.stored⟩

/-- A byte in a cell changes neither the other cells nor the program. -/
theorem Data.store (h : Supported prog) (hd : Data prog b s) (hr : InRange s.ptr) (v : Byte) :
    (∀ a : Address, 0x1000 ≤ a.toNat →
      Function.update b.ram b.ptrReg v a = (s.setCell v).cells a.toNat) ∧
    Stored prog (Function.update b.ram b.ptrReg v) := by
  have hptr := hd.ptr
  have hlen := h.length_lt
  constructor
  · intro a ha
    change Function.update b.ram b.ptrReg v a = Function.update s.cells s.ptr v a.toNat
    rw [← hptr]
    by_cases heq : a = b.ptrReg
    · rw [heq, Function.update_self, Function.update_self]
    · have hne : (a.toNat : Int) ≠ b.ptrReg.toNat := by
        intro hnat
        exact heq (BitVec.eq_of_toNat_eq (Int.ofNat_inj.mp hnat))
      rw [Function.update_of_ne heq, Function.update_of_ne hne]
      exact hd.cells a ha
  · intro p hp
    rw [Function.update_of_ne, hd.stored p hp]
    intro heq
    have hnat := congrArg BitVec.toNat heq
    rw [BitVec.toNat_ofNat, Nat.mod_eq_of_lt (by omega)] at hnat
    have := hr.1
    omega

theorem Executes.pc_inc (h : Supported prog) (he : Executes prog b s i) :
    s.pc + 1 ≤ prog.length ∧ (b.pcReg + 1).toNat = s.pc + 1 := by
  obtain ⟨hpc, hi⟩ := he
  have hlt := lt_of_code hi
  have hlen := h.length_lt
  exact ⟨hlt, by rw [toNat_inc (by omega), hpc]⟩

section

variable (h : Supported prog) (hd : Data prog b s)
include h hd

theorem clock_sIncPtr (hst : b.presentState = .sIncPtr) (he : Executes prog b s .right)
    (hr : InRange (s.step (code prog) input).ptr) :
    Follows prog input (b.clock (b.inputs input vld busy)) s := by
  obtain ⟨hle, hinc⟩ := he.pc_inc h
  have hstep : s.step (code prog) input = { s.next with ptr := s.ptr + 1 } := by
    simp [BrainFuck.State.step, he.2]
  have hc : b.clock (b.inputs input vld busy) =
      { b with pcReg := b.pcReg + 1, ptrReg := b.ptrReg + 1, presentState := .sfetch } := by
    simp [Board.clock, Board.inputs, fsmNextstate, hst, count]
  rw [hstep] at hr
  have hptr := hd.ptr
  have hr2 : s.ptr + 1 ≤ 0x1FFF := hr.2
  have hptr' : (b.ptrReg + 1).toNat = b.ptrReg.toNat + 1 := toNat_inc (by omega)
  rw [Follows, hc]
  change Sim prog _ (s.step (code prog) input)
  rw [hstep]
  exact ⟨⟨hle, by change ((b.ptrReg + 1).toNat : Int) = s.ptr + 1; omega, hd.cells, hd.taken,
    hd.out, hd.stored⟩, hinc⟩

theorem clock_sDecPtr (hst : b.presentState = .sDecPtr) (he : Executes prog b s .left)
    (hr : InRange (s.step (code prog) input).ptr) :
    Follows prog input (b.clock (b.inputs input vld busy)) s := by
  obtain ⟨hle, hinc⟩ := he.pc_inc h
  have hstep : s.step (code prog) input = { s.next with ptr := s.ptr - 1 } := by
    simp [BrainFuck.State.step, he.2]
  have hc : b.clock (b.inputs input vld busy) =
      { b with pcReg := b.pcReg + 1, ptrReg := b.ptrReg - 1, presentState := .sfetch } := by
    simp [Board.clock, Board.inputs, fsmNextstate, hst, count]
  rw [hstep] at hr
  have hptr := hd.ptr
  have hr1 : 0x1000 ≤ s.ptr - 1 := hr.1
  have hptr' : (b.ptrReg - 1).toNat = b.ptrReg.toNat - 1 := toNat_dec (by omega)
  rw [Follows, hc]
  change Sim prog _ (s.step (code prog) input)
  rw [hstep]
  exact ⟨⟨hle, by change ((b.ptrReg - 1).toNat : Int) = s.ptr - 1; omega, hd.cells, hd.taken,
    hd.out, hd.stored⟩, hinc⟩

theorem clock_sNop (hst : b.presentState = .sNop) (he : Executes prog b s .skip) :
    Follows prog input (b.clock (b.inputs input vld busy)) s := by
  obtain ⟨hle, hinc⟩ := he.pc_inc h
  have hstep : s.step (code prog) input = s.next := by
    simp [BrainFuck.State.step, he.2]
  have hc : b.clock (b.inputs input vld busy) =
      { b with pcReg := b.pcReg + 1, presentState := .sidle } := by
    simp [Board.clock, Board.inputs, fsmNextstate, hst, count]
  rw [Follows, hc]
  change Sim prog _ (s.step (code prog) input)
  rw [hstep]
  exact ⟨⟨hle, hd.ptr, hd.cells, hd.taken, hd.out, hd.stored⟩, hinc⟩

theorem clock_sIncValue2 (hst : b.presentState = .sIncValue2) (he : Executes prog b s .inc)
    (hcell : b.dataRdata = s.cell) (hr : InRange s.ptr) :
    Follows prog input (b.clock (b.inputs input vld busy)) s := by
  obtain ⟨hle, hinc⟩ := he.pc_inc h
  have hstep : s.step (code prog) input = s.next.setCell (s.cell + 1) := by
    simp [BrainFuck.State.step, he.2]
  have hc : b.clock (b.inputs input vld busy) =
      { b with
        pcReg := b.pcReg + 1
        presentState := .sfetch
        dataRdwr := true
        ram := Function.update b.ram b.ptrReg (s.cell + 1) } := by
    simp [Board.clock, Board.inputs, fsmNextstate, hst, count, dataWdata, Board.dataAddr, hcell]
  obtain ⟨hcells, hstored⟩ := hd.store h hr (s.cell + 1)
  rw [Follows, hc]
  change Sim prog _ (s.step (code prog) input)
  rw [hstep]
  exact ⟨⟨hle, hd.ptr, hcells, hd.taken, hd.out, hstored⟩, hinc⟩

theorem clock_sDecValue2 (hst : b.presentState = .sDecValue2) (he : Executes prog b s .dec)
    (hcell : b.dataRdata = s.cell) (hr : InRange s.ptr) :
    Follows prog input (b.clock (b.inputs input vld busy)) s := by
  obtain ⟨hle, hinc⟩ := he.pc_inc h
  have hstep : s.step (code prog) input = s.next.setCell (s.cell - 1) := by
    simp [BrainFuck.State.step, he.2]
  have hc : b.clock (b.inputs input vld busy) =
      { b with
        pcReg := b.pcReg + 1
        presentState := .sfetch
        dataRdwr := true
        ram := Function.update b.ram b.ptrReg (s.cell - 1) } := by
    simp [Board.clock, Board.inputs, fsmNextstate, hst, count, dataWdata, Board.dataAddr, hcell]
  obtain ⟨hcells, hstored⟩ := hd.store h hr (s.cell - 1)
  rw [Follows, hc]
  change Sim prog _ (s.step (code prog) input)
  rw [hstep]
  exact ⟨⟨hle, hd.ptr, hcells, hd.taken, hd.out, hstored⟩, hinc⟩

theorem clock_sGetChar2 (hst : b.presentState = .sGetChar2) (he : Executes prog b s .get)
    (hr : InRange s.ptr) : Follows prog input (b.clock (b.inputs input vld busy)) s := by
  cases vld with
  | false =>
    have hc : b.clock (b.inputs input false busy) = { b with presentState := .sGetChar2 } := by
      simp [Board.clock, Board.inputs, fsmNextstate, hst, count]
    rw [Follows, hc]
    exact ⟨⟨hd.pc_le, hd.ptr, hd.cells, hd.taken, hd.out, hd.stored⟩, he⟩
  | true =>
    obtain ⟨hle, hinc⟩ := he.pc_inc h
    have hstep : s.step (code prog) input =
        { s.next.setCell (input s.taken) with taken := s.taken + 1 } := by
      simp [BrainFuck.State.step, he.2]
    have hc : b.clock (b.inputs input true busy) =
        { b with
          pcReg := b.pcReg + 1
          presentState := .sfetch
          dataRdwr := true
          ram := Function.update b.ram b.ptrReg (input s.taken)
          taken := s.taken + 1 } := by
      simp [Board.clock, Board.inputs, fsmNextstate, hst, count, dataWdata, Board.dataAddr,
        hd.taken]
    obtain ⟨hcells, hstored⟩ := hd.store h hr (input s.taken)
    rw [Follows, hc]
    change Sim prog _ (s.step (code prog) input)
    rw [hstep]
    exact ⟨⟨hle, hd.ptr, hcells, rfl, hd.out, hstored⟩, hinc⟩

theorem clock_sPutChar2 (hst : b.presentState = .sPutChar2) (he : Executes prog b s .put)
    (hcell : b.dataRdata = s.cell) : Follows prog input (b.clock (b.inputs input vld busy)) s := by
  cases busy with
  | true =>
    have hc : b.clock (b.inputs input vld true) = { b with presentState := .sPutChar2 } := by
      simp [Board.clock, Board.inputs, fsmNextstate, hst, count]
    rw [Follows, hc]
    exact ⟨⟨hd.pc_le, hd.ptr, hd.cells, hd.taken, hd.out, hd.stored⟩, he, hcell⟩
  | false =>
    obtain ⟨hle, hinc⟩ := he.pc_inc h
    have hstep : s.step (code prog) input = { s.next with out := s.out ++ [s.cell] } := by
      simp [BrainFuck.State.step, he.2]
    have hc : b.clock (b.inputs input vld false) =
        { b with
          pcReg := b.pcReg + 1
          presentState := .sfetch
          outData := s.cell
          written := s.out ++ [s.cell] } := by
      simp [Board.clock, Board.inputs, fsmNextstate, hst, count, hcell, hd.out]
    rw [Follows, hc]
    change Sim prog _ (s.step (code prog) input)
    rw [hstep]
    exact ⟨⟨hle, hd.ptr, hd.cells, hd.taken, rfl, hd.stored⟩, hinc⟩

/-- The test of `sWhileB1` sees the bracket, so the loop is entered. -/
theorem clock_sWhileB1 (input : Nat → Byte) (vld busy : Bool) (hst : b.presentState = .sWhileB1)
    (he : Executes prog b s .loop) (hbyte : b.dataRdata ≠ 0) :
    (b.clock (b.inputs input vld busy)).presentState = .sfetch ∧
      (b.clock (b.inputs input vld busy)).pcReg.toNat = s.pc + 1 ∧
      (¬ s.SkipsLoop (code prog) →
        Follows prog input (b.clock (b.inputs input vld busy)) s) := by
  obtain ⟨hle, hinc⟩ := he.pc_inc h
  have hbyte : ¬ b.dataRdata = 0#8 := hbyte
  have hc : b.clock (b.inputs input vld busy) =
      { b with
        pcReg := b.pcReg + 1
        presentState := .sfetch
        dataRdwr := false
        dataRdata := b.ram b.ptrReg } := by
    simp [Board.clock, Board.inputs, fsmNextstate, hst, count, hbyte, Board.dataAddr]
  rw [hc]
  refine ⟨rfl, hinc, fun hskip => ?_⟩
  have hcell : ¬ s.cell = 0#8 := fun h0 => hskip ⟨he.2, h0⟩
  have hstep : s.step (code prog) input = s.next := by
    simp [BrainFuck.State.step, he.2, hcell]
  change Sim prog _ (s.step (code prog) input)
  rw [hstep]
  exact ⟨⟨hle, hd.ptr, hd.cells, hd.taken, hd.out, hd.stored⟩, hinc⟩

theorem clock_sWhileE2 (hst : b.presentState = .sWhileE2) (he : Executes prog b s .endLoop)
    (hcell : b.dataRdata = s.cell) (hrdwr : b.dataRdwr = false) :
    Follows prog input (b.clock (b.inputs input vld busy)) s := by
  by_cases h0 : s.cell = 0#8
  · obtain ⟨hle, hinc⟩ := he.pc_inc h
    have hstep : s.step (code prog) input = s.next := by
      simp [BrainFuck.State.step, he.2, h0]
    have hc : b.clock (b.inputs input vld busy) =
        { b with pcReg := b.pcReg + 1, presentState := .sfetch } := by
      simp [Board.clock, Board.inputs, fsmNextstate, hst, count, hcell, h0]
    rw [Follows, hc]
    change Sim prog _ (s.step (code prog) input)
    rw [hstep]
    exact ⟨⟨hle, hd.ptr, hd.cells, hd.taken, hd.out, hd.stored⟩, hinc⟩
  · have hc : b.clock (b.inputs input vld busy) =
        { b with pcReg := b.pcReg - 1, presentState := .sWhileE3 } := by
      simp [Board.clock, Board.inputs, fsmNextstate, hst, count, hcell, h0]
    obtain ⟨hpos, hscan⟩ := Scans.of_endLoop h he.2
    have hdec : (b.pcReg - 1).toNat = s.pc - 1 := by rw [toNat_dec (by rwa [he.1]), he.1]
    rw [Follows, hc]
    refine ⟨⟨hd.pc_le, hd.ptr, hd.cells, hd.taken, hd.out, hd.stored⟩, he.2, h0, hrdwr, ?_⟩
    change Scans prog s (b.pcReg - 1).toNat
    rwa [hdec]

omit h in
theorem clock_sWhileE3 (hst : b.presentState = .sWhileE3)
    (hi : (code prog)[s.pc]? = some .endLoop) (hcell : s.cell ≠ 0) (hrdwr : b.dataRdwr = false)
    (hscan : Scans prog s b.pcReg.toNat) :
    Follows prog input (b.clock (b.inputs input vld busy)) s := by
  have hlt := (hscan.code_eq hi).1
  have hle := hd.pc_le
  have hc : b.clock (b.inputs input vld busy) =
      { b with presentState := .sWhileE4, dataRdata := b.ram b.pcReg } := by
    simp [Board.clock, Board.inputs, fsmNextstate, hst, count, hrdwr, Board.dataAddr]
  rw [Follows, hc]
  refine ⟨⟨hd.pc_le, hd.ptr, hd.cells, hd.taken, hd.out, hd.stored⟩, hi, hcell, hrdwr, hscan, ?_⟩
  exact hd.ram_pc (by omega)

theorem clock_sWhileE4 (hst : b.presentState = .sWhileE4)
    (hi : (code prog)[s.pc]? = some .endLoop) (hcell : s.cell ≠ 0) (hrdwr : b.dataRdwr = false)
    (hscan : Scans prog s b.pcReg.toNat) (hbyte : b.dataRdata = byteAt prog b.pcReg.toNat) :
    Follows prog input (b.clock (b.inputs input vld busy)) s := by
  have hlt := (hscan.code_eq hi).1
  have hle := hd.pc_le
  have hdec := h.iregDec_byteAt b.pcReg.toNat
  rw [← hbyte] at hdec
  by_cases hq : (code prog)[b.pcReg.toNat]? = some .loop
  · have hdec' : iregDec b.dataRdata = .whileB := by rw [hdec, hq]; rfl
    have hc : b.clock (b.inputs input vld busy) = { b with presentState := .sfetch } := by
      simp [Board.clock, Board.inputs, fsmNextstate, hst, count, hdec']
    rw [Follows, hc]
    change Sim prog _ (s.step (code prog) input)
    rw [hscan.step_eq hi hcell hq]
    exact ⟨⟨by change b.pcReg.toNat ≤ _; omega, hd.ptr, hd.cells, hd.taken, hd.out, hd.stored⟩,
      rfl⟩
  · have hdec' : iregDec b.dataRdata ≠ .whileB := by
      rw [hdec]
      intro heq
      cases hcode : (code prog)[b.pcReg.toNat]? with
      | none =>
        rw [hcode] at heq
        cases heq
      | some j =>
        rw [hcode] at heq hq
        cases j <;> first | exact hq rfl | cases heq
    have hc : b.clock (b.inputs input vld busy) =
        { b with pcReg := b.pcReg - 1, presentState := .sWhileE3 } := by
      simp [Board.clock, Board.inputs, fsmNextstate, hst, count, hdec']
    obtain ⟨hpos, hback⟩ := hscan.back hi hq
    rw [Follows, hc]
    refine ⟨⟨hd.pc_le, hd.ptr, hd.cells, hd.taken, hd.out, hd.stored⟩, hi, hcell, hrdwr, ?_⟩
    change Scans prog s (b.pcReg - 1).toNat
    rwa [toNat_dec hpos]

end

/-- A clock in the middle of an instruction. -/
theorem Sim.clock_executing (vld busy : Bool) (h : Supported prog) (hs : Sim prog b s)
    (hnr : b.presentState.resting = false) (hr : InRange s.ptr)
    (hr' : InRange (s.step (code prog) input).ptr) (hskip : ¬ s.SkipsLoop (code prog)) :
    Follows prog input (b.clock (b.inputs input vld busy)) s := by
  have hdecode := hs.clock_decode input vld busy h
  obtain ⟨hd, hp⟩ := hs
  have hread := hd.ram_ptr hr
  cases hst : b.presentState <;> rw [hst] at hp hnr
  case sidle | sfetch => cases hnr
  case sWhileB2 | sWhileB3 | sWhileB4 => exact hp.elim
  case sdecode =>
    obtain ⟨hstate, hsim⟩ := hdecode hst
    have hnot : (FsmState.ofInstr (code prog)[s.pc]?).resting = false := by
      cases (code prog)[s.pc]? with
      | none => rfl
      | some i => cases i <;> rfl
    rw [Follows, hstate, hnot]
    exact hsim
  case sIncPtr => exact clock_sIncPtr h hd hst hp hr'
  case sDecPtr => exact clock_sDecPtr h hd hst hp hr'
  case sIncValue2 => exact clock_sIncValue2 h hd hst hp.1 hp.2 hr
  case sDecValue2 => exact clock_sDecValue2 h hd hst hp.1 hp.2 hr
  case sGetChar2 => exact clock_sGetChar2 h hd hst hp hr
  case sPutChar2 => exact clock_sPutChar2 h hd hst hp.1 hp.2
  case sWhileB1 => exact (clock_sWhileB1 h hd input vld busy hst hp.1 hp.2).2.2 hskip
  case sWhileE2 => exact clock_sWhileE2 h hd hst hp.1 hp.2.1 hp.2.2
  case sWhileE3 => exact clock_sWhileE3 hd hst hp.1 hp.2.1 hp.2.2.1 hp.2.2.2
  case sWhileE4 => exact clock_sWhileE4 h hd hst hp.1 hp.2.1 hp.2.2.1 hp.2.2.2.1 hp.2.2.2.2
  case sNop => exact clock_sNop h hd hst hp
  case sGetChar1 =>
    have hc : b.clock (b.inputs input vld busy) = { b with presentState := .sGetChar2 } := by
      simp [Board.clock, Board.inputs, fsmNextstate, hst, count]
    rw [Follows, hc]
    exact ⟨⟨hd.pc_le, hd.ptr, hd.cells, hd.taken, hd.out, hd.stored⟩, hp⟩
  case shalt =>
    have hc : b.clock (b.inputs input vld busy) = { b with presentState := .shalt } := by
      simp [Board.clock, Board.inputs, fsmNextstate, hst, count]
    rw [Follows, hc]
    exact ⟨⟨hd.pc_le, hd.ptr, hd.cells, hd.taken, hd.out, hd.stored⟩, trivial⟩
  case sWhileE1 =>
    have hc : b.clock (b.inputs input vld busy) = b.reads .sWhileE2 := by
      simp [Board.clock, Board.inputs, fsmNextstate, hst, count, Board.dataAddr, Board.reads]
    rw [Follows, hc]
    exact ⟨hd.reads _, hp, hread, rfl⟩
  case sIncValue1 =>
    have hc : b.clock (b.inputs input vld busy) = b.reads .sIncValue2 := by
      simp [Board.clock, Board.inputs, fsmNextstate, hst, count, Board.dataAddr, Board.reads]
    rw [Follows, hc]
    exact ⟨hd.reads _, hp, hread⟩
  case sDecValue1 =>
    have hc : b.clock (b.inputs input vld busy) = b.reads .sDecValue2 := by
      simp [Board.clock, Board.inputs, fsmNextstate, hst, count, Board.dataAddr, Board.reads]
    rw [Follows, hc]
    exact ⟨hd.reads _, hp, hread⟩
  case sPutChar1 =>
    have hc : b.clock (b.inputs input vld busy) = b.reads .sPutChar2 := by
      simp [Board.clock, Board.inputs, fsmNextstate, hst, count, Board.dataAddr, Board.reads]
    rw [Follows, hc]
    exact ⟨hd.reads _, hp, hread⟩

/-! ## Runs -/

section

variable {vld busy : Nat → Bool} {t k : Nat}

/-- What is known of the board after `t` periods: it is at, or in the middle of, the last instruction
that was fetched. -/
def Tracks (prog : List Byte) (input : Nat → Byte) (vld busy : Nat → Bool) (b : Board) (t : Nat) :
    Prop :=
  if (b.run input vld busy t).presentState.resting then
    Sim prog (b.run input vld busy t)
      ((start b).after (code prog) input (b.fetches input vld busy t))
  else ∃ k, b.fetches input vld busy t = k + 1 ∧
    Sim prog (b.run input vld busy t) ((start b).after (code prog) input k)

variable (h : Supported prog) (hstored : Stored prog b.ram)
  (hr : ∀ k, InRange ((start b).after (code prog) input k).ptr)
include h hstored hr

theorem tracks (hskip : ∀ k < b.fetches input vld busy t,
      ¬ ((start b).after (code prog) input k).SkipsLoop (code prog)) :
    Tracks prog input vld busy b t := by
  induction t with
  | zero =>
    refine ⟨⟨Nat.zero_le _, rfl, fun a _ => ?_, rfl, rfl, hstored⟩, rfl⟩
    exact congrArg b.ram (by simp)
  | succ t ih =>
    have hle : b.fetches input vld busy t ≤ b.fetches input vld busy (t + 1) := Nat.le_add_right ..
    have ih := ih fun k hk => hskip k (Nat.lt_of_lt_of_le hk hle)
    have hfetch : b.fetches input vld busy (t + 1) = b.fetches input vld busy t +
        if (b.run input vld busy t).presentState = .sfetch then 1 else 0 := rfl
    rw [Tracks] at ih ⊢
    cases hrest : (b.run input vld busy t).presentState.resting with
    | true =>
      rw [hrest, if_pos rfl] at ih
      obtain ⟨hstate, hsim⟩ :=
        ih.clock_resting input (vld t) (busy t) hrest
      by_cases hst : (b.run input vld busy t).presentState = .sfetch
      · rw [if_pos hst] at hfetch hstate
        change if ((b.run input vld busy t).clock _).presentState.resting then _ else _
        rw [hstate]
        exact ⟨_, hfetch, hsim⟩
      · rw [if_neg hst] at hfetch hstate
        change if ((b.run input vld busy t).clock _).presentState.resting then _ else _
        rw [hstate, hfetch]
        exact hsim
    | false =>
      rw [hrest, if_neg Bool.false_ne_true] at ih
      obtain ⟨k, hk, hsim⟩ := ih
      have hne : (b.run input vld busy t).presentState ≠ .sfetch := by
        intro heq
        rw [heq] at hrest
        cases hrest
      rw [if_neg hne, Nat.add_zero] at hfetch
      have hfollows := hsim.clock_executing (vld t) (busy t) h hrest
        (hr k) (hr (k + 1)) (hskip k (by omega))
      rw [Follows] at hfollows
      change if ((b.run input vld busy t).clock _).presentState.resting then _ else _
      split
      case isTrue hres =>
        rw [if_pos hres] at hfollows
        rw [hfetch, hk]
        exact hfollows
      case isFalse hres =>
        rw [if_neg hres] at hfollows
        exact ⟨k, hfetch.trans hk, hfollows⟩

omit h hstored hr in
/-- Every instruction before the current one was fetched. -/
theorem exists_fetch (hk : k < b.fetches input vld busy t) :
    ∃ t', (b.run input vld busy t').presentState = .sfetch ∧ b.fetches input vld busy t' = k := by
  induction t with
  | zero => cases hk
  | succ t ih =>
    rcases Nat.lt_or_ge k (b.fetches input vld busy t) with hlt | hge
    · exact ih hlt
    · rw [Board.fetches] at hk
      split at hk
      case isTrue hst => exact ⟨t, hst, by omega⟩
      case isFalse => omega

omit hstored hr in
/-- A loop that the language skips is entered. -/
theorem not_refines_of_skip (hst : (b.run input vld busy t).presentState = .sfetch)
    (hsim : Sim prog (b.run input vld busy t)
      ((start b).after (code prog) input (b.fetches input vld busy t)))
    (hskip : ((start b).after (code prog) input (b.fetches input vld busy t)).SkipsLoop
      (code prog)) : ¬ Refines prog input vld busy b := by
  intro href
  obtain ⟨hst₁, hsim₁⟩ := hsim.clock_resting input (vld t) (busy t) (by rw [hst]; rfl)
  rw [hst, if_pos rfl] at hst₁
  obtain ⟨hst₂, hsim₂⟩ := hsim₁.clock_decode input (vld (t + 1)) (busy (t + 1)) h hst₁
  rw [hskip.1] at hst₂
  obtain ⟨hd₂, hp₂⟩ := hsim₂
  rw [hst₂] at hp₂
  obtain ⟨hst₃, hpc, -⟩ := clock_sWhileB1 h hd₂ input (vld (t + 2)) (busy (t + 2)) hst₂ hp₂.1
    hp₂.2
  have hfetches : b.fetches input vld busy (t + 3) = b.fetches input vld busy t + 1 := by
    have h₁ : (b.run input vld busy (t + 1)).presentState = .sdecode := hst₁
    have h₂ : (b.run input vld busy (t + 2)).presentState = .sWhileB1 := hst₂
    simp [Board.fetches, hst, h₁, h₂]
  have hagrees := (href (t + 3) hst₃).pc
  rw [hfetches] at hagrees
  exact hskip.step_pc_ne input (hagrees.symm.trans hpc)

/-- The processor refines the language exactly as long as no loop is to be skipped: as long as it has
not completed a bracket at which the cell is zero. -/
theorem refines_iff : Refines prog input vld busy b ↔
    ∀ t, (b.run input vld busy t).presentState = .sfetch →
      ∀ k < b.fetches input vld busy t,
        ¬ ((start b).after (code prog) input k).SkipsLoop (code prog) := by
  constructor
  · intro href t hst k
    induction k using Nat.strong_induction_on with
    | _ k ih =>
      intro hk hskip
      obtain ⟨t', hst', rfl⟩ := exists_fetch hk
      have hno : ∀ j < b.fetches input vld busy t',
          ¬ ((start b).after (code prog) input j).SkipsLoop (code prog) :=
        fun j hj => ih j hj (Nat.lt_trans hj hk)
      have htracks := tracks h hstored hr hno
      rw [Tracks, if_pos (by rw [hst']; rfl)] at htracks
      exact not_refines_of_skip h hst' htracks hskip href
  · intro hskip t hst
    have htracks := tracks h hstored hr (hskip t hst)
    rw [Tracks, if_pos (by rw [hst]; rfl)] at htracks
    exact htracks.agrees (by rw [hst]; rfl)

end

/-- A board that holds a program and zero bytes. -/
def loaded (prog : List Byte) : Board where
  pcReg := 0
  ptrReg := 0
  cntReg := 0
  presentState := .shalt
  dataRdwr := true
  outData := 0
  ram a := byteAt prog a.toNat
  dataRdata := 0
  taken := 0
  written := []

theorem loaded_stored (h : prog.length < 4096) : Stored prog (loaded prog).ram := by
  intro p hp
  change byteAt prog (BitVec.ofNat 13 p).toNat = byteAt prog p
  rw [BitVec.toNat_ofNat, Nat.mod_eq_of_lt (by omega)]

theorem inRange_of_notMem (hright : .right ∉ code prog) (hleft : .left ∉ code prog)
    (input : Nat → Byte) (k : Nat) :
    InRange ((start (loaded prog)).after (code prog) input k).ptr := by
  rw [BrainFuck.State.after_ptr hright hleft]
  change (0x1000 : Int) ≤ 0x1000 ∧ (0x1000 : Int) ≤ 0x1FFF
  omega

/-- `+[-]` enters its loop once, and comes to the end behind it. -/
theorem not_skipsLoop_clear (k : Nat) :
    ¬ ((start (loaded [0x2B, 0x5B, 0x2D, 0x5D])).after (code [0x2B, 0x5B, 0x2D, 0x5D]) (fun _ => 0)
      k).SkipsLoop (code [0x2B, 0x5B, 0x2D, 0x5D]) := by
  have hend (n : Nat) : ((start (loaded [0x2B, 0x5B, 0x2D, 0x5D])).after
      (code [0x2B, 0x5B, 0x2D, 0x5D]) (fun _ => 0) (4 + n)).pc = 4 := by
    induction n with
    | zero => decide +kernel
    | succ n ih =>
      rw [← Nat.add_assoc, BrainFuck.State.after, BrainFuck.State.step, ih]
      exact ih
  rintro ⟨hloop, hcell⟩
  rcases Nat.lt_or_ge k 4 with hk | hk
  · obtain rfl | rfl | rfl | rfl : k = 0 ∨ k = 1 ∨ k = 2 ∨ k = 3 := by omega
    · exact absurd hloop (by decide)
    · exact absurd hcell (by decide +kernel)
    · exact absurd hloop (by decide +kernel)
    · exact absurd hloop (by decide +kernel)
  · obtain ⟨n, rfl⟩ := Nat.exists_eq_add_of_le hk
    rw [hend n] at hloop
    exact absurd hloop (by decide)

/-- The program of an addition and a loop that clears the cell again runs as in the language. -/
theorem refines_iff_clear :
    Refines [0x2B, 0x5B, 0x2D, 0x5D] (fun _ => 0) (fun _ => true) (fun _ => false)
      (loaded [0x2B, 0x5B, 0x2D, 0x5D]) :=
  (refines_iff ⟨by decide, by decide, by decide +kernel⟩ (loaded_stored (by decide))
    (inRange_of_notMem (by decide) (by decide) _)).mpr fun _ _ k _ => not_skipsLoop_clear k

/-- An empty loop at a cell that is zero. -/
theorem not_refines : ¬ ∀ (prog : List Byte) (input : Nat → Byte) (vld busy : Nat → Bool)
    (b : Board), Supported prog → Stored prog b.ram →
      (∀ k, InRange ((start b).after (code prog) input k).ptr) →
      Refines prog input vld busy b := by
  intro hall
  have href := hall [0x5B, 0x5D] (fun _ => 0) (fun _ => true) (fun _ => false) (loaded [0x5B, 0x5D])
    ⟨by decide, by decide, by decide +kernel⟩ (loaded_stored (by decide))
    (inRange_of_notMem (by decide) (by decide) _)
  have hpc := (href 4 (by decide +kernel)).pc
  revert hpc
  decide +kernel

end Cpu
