import Mathlib.Logic.Function.Basic
import Mathlib.Data.BitVec

/-! # The processor for BrainFuck

The architecture `behavioral` of `INP/proj2/cpu.vhd` on a board with the synchronous memory, an input
and an output. Signals of `std_logic` are `Bool`. A signal that a branch of a process does not drive
keeps its value (`dataRdwr`, `outData`) and is `none` there. -/

namespace Cpu

abbrev Byte := BitVec 8

abbrev Address := BitVec 13

inductive Instructions
  | incPtr
  | decPtr
  | incValue
  | decValue
  | whileB
  | whileE
  | putchar
  | getchar
  | nop
  | halt
  deriving DecidableEq

inductive FsmState
  | sidle
  | sfetch
  | sdecode
  | sIncPtr
  | sDecPtr
  | sIncValue1
  | sDecValue1
  | sDecValue2
  | sIncValue2
  | sPutChar1
  | sPutChar2
  | sGetChar1
  | sGetChar2
  | sWhileB1
  | sWhileB2
  | sWhileB3
  | sWhileB4
  | sWhileE1
  | sWhileE2
  | sWhileE3
  | sWhileE4
  | sNop
  | shalt
  deriving DecidableEq

/-- The input ports apart from the memory. -/
structure Inputs where
  en : Bool
  inData : Byte
  inVld : Bool
  outBusy : Bool

/-- What the process `fsm_nextstate` drives, with the values of its part `INIT`. -/
structure Signals where
  mx1 : Bool := false
  mx2 : BitVec 2 := 0b00#2
  dataEn : Bool := false
  dataRdwr : Option Bool := none
  pcInc : Bool := false
  pcDec : Bool := false
  ptrInc : Bool := false
  ptrDec : Bool := false
  cntInc : Bool := false
  cntDec : Bool := false
  outWe : Bool := false
  outData : Option Byte := none
  inReq : Bool := false
  nextState : FsmState := .sfetch

/-- The decoder. -/
def iregDec (dataRdata : Byte) : Instructions :=
  match dataRdata.toNat with
  | 0x3E => .incPtr
  | 0x3C => .decPtr
  | 0x2B => .incValue
  | 0x2D => .decValue
  | 0x5B => .whileB
  | 0x5D => .whileE
  | 0x2E => .putchar
  | 0x2C => .getchar
  | 0x00 => .halt
  | _ => .nop

/-- `fsm_nextstate`. -/
def fsmNextstate (presentState : FsmState) (dataRdata : Byte) (i : Inputs) : Signals :=
  match presentState with
  | .sidle => { nextState := .sfetch }
  | .sfetch => { mx1 := false, dataEn := true, dataRdwr := some false, nextState := .sdecode }
  | .sdecode =>
    match iregDec dataRdata with
    | .incPtr => { nextState := .sIncPtr }
    | .decPtr => { nextState := .sDecPtr }
    | .incValue => { nextState := .sIncValue1 }
    | .decValue => { nextState := .sDecValue1 }
    | .getchar => { nextState := .sGetChar1 }
    | .putchar => { nextState := .sPutChar1 }
    | .whileB => { nextState := .sWhileB1 }
    | .whileE => { nextState := .sWhileE1 }
    | .nop => { nextState := .sNop }
    | .halt => { nextState := .shalt }
  | .sIncPtr =>
    { pcInc := true, pcDec := false, ptrInc := true, ptrDec := false, nextState := .sfetch }
  | .sDecPtr =>
    { pcInc := true, pcDec := false, ptrInc := false, ptrDec := true, nextState := .sfetch }
  | .sIncValue1 =>
    { dataEn := true, mx1 := true, dataRdwr := some false, nextState := .sIncValue2 }
  | .sIncValue2 =>
    { mx1 := true, mx2 := 0b01#2, dataRdwr := some true, dataEn := true, pcInc := true,
      nextState := .sfetch }
  | .sDecValue1 =>
    { dataEn := true, mx1 := true, dataRdwr := some false, nextState := .sDecValue2 }
  | .sDecValue2 =>
    { mx1 := true, mx2 := 0b10#2, dataRdwr := some true, dataEn := true, pcInc := true,
      nextState := .sfetch }
  | .sGetChar1 => { inReq := true, nextState := .sGetChar2 }
  | .sGetChar2 =>
    if !i.inVld then { nextState := .sGetChar2 } else
      { mx1 := true, mx2 := 0b00#2, dataRdwr := some true, dataEn := true, pcInc := true,
        nextState := .sfetch }
  | .sPutChar1 =>
    { dataEn := true, mx1 := true, dataRdwr := some false, nextState := .sPutChar2 }
  | .sPutChar2 =>
    if !i.outBusy then
      { outData := some dataRdata, outWe := true, pcInc := true, nextState := .sfetch }
    else { nextState := .sPutChar2 }
  | .sWhileB1 =>
    { mx1 := true, dataRdwr := some false, dataEn := true, pcInc := true,
      nextState := if dataRdata = 0 then .sWhileB2 else .sfetch }
  | .sWhileB2 => { mx1 := false, dataEn := true, nextState := .sWhileB3 }
  | .sWhileB3 =>
    { pcInc := true, nextState := if iregDec dataRdata = .whileE then .sfetch else .sWhileB2 }
  | .sWhileE1 =>
    { mx1 := true, dataRdwr := some false, dataEn := true, nextState := .sWhileE2 }
  | .sWhileE2 =>
    if dataRdata = 0 then { pcInc := true, nextState := .sfetch }
    else { pcDec := true, nextState := .sWhileE3 }
  | .sWhileE3 => { mx1 := false, dataEn := true, nextState := .sWhileE4 }
  | .sWhileE4 =>
    if iregDec dataRdata = .whileB then { nextState := .sfetch }
    else { pcDec := true, nextState := .sWhileE3 }
  | .sNop => { pcInc := true, nextState := .sidle }
  | .shalt => { nextState := .shalt }
  | .sWhileB4 => { nextState := .sNop }

/-- The multiplexer of `DATA_WDATA`; `none` is high impedance. -/
def dataWdata (mx2 : BitVec 2) (inData dataRdata : Byte) : Option Byte :=
  match mx2.toNat with
  | 0b00 => some inData
  | 0b01 => some (dataRdata + 1)
  | 0b10 => some (dataRdata - 1)
  | _ => none

/-- A counter register: a later assignment of the process wins. -/
def count (reg : Address) (inc dec : Bool) : Address :=
  if dec then reg - 1 else if inc then reg + 1 else reg

/-- The registers of the processor, the memory with its output, how many bytes of the input were
stored, and the bytes written to the output. -/
structure Board where
  pcReg : Address
  ptrReg : Address
  cntReg : Address
  presentState : FsmState
  dataRdwr : Bool
  outData : Byte
  ram : Address → Byte
  dataRdata : Byte
  taken : Nat
  written : List Byte

namespace Board

variable (b : Board) (i : Inputs)

/-- The board after `RESET`, whatever the memory and the latches hold. -/
def reset : Board :=
  { b with
    pcReg := 0
    ptrReg := 0x1000
    cntReg := 0
    presentState := .sidle
    taken := 0
    written := [] }

/-- The multiplexer of `DATA_ADDR`. -/
def dataAddr (mx1 : Bool) : Address := if mx1 then b.ptrReg else b.pcReg

/-- One period of `CLK`: the processes at the rising edge, and the memory. -/
def clock : Board :=
  let sig := fsmNextstate b.presentState b.dataRdata i
  let rdwr := sig.dataRdwr.getD b.dataRdwr
  let outData := sig.outData.getD b.outData
  let addr := b.dataAddr sig.mx1
  { pcReg := count b.pcReg sig.pcInc sig.pcDec
    ptrReg := count b.ptrReg sig.ptrInc sig.ptrDec
    cntReg := count b.cntReg sig.cntInc sig.cntDec
    presentState := if i.en then sig.nextState else b.presentState
    dataRdwr := rdwr
    outData
    ram :=
      if sig.dataEn && rdwr then
        match dataWdata sig.mx2 i.inData b.dataRdata with
        | some v => Function.update b.ram addr v
        | none => b.ram
      else b.ram
    dataRdata := if sig.dataEn && !rdwr then b.ram addr else b.dataRdata
    taken := if sig.dataEn && rdwr && sig.mx2 = 0b00#2 then b.taken + 1 else b.taken
    written := if sig.outWe && !i.outBusy then b.written ++ [outData] else b.written }

/-- The inputs of an enabled processor: the bytes of `input` come one after the other, and are valid
when `vld` says so. -/
def inputs (input : Nat → Byte) (vld busy : Bool) : Inputs :=
  { en := true, inData := input b.taken, inVld := vld, outBusy := busy }

/-- The board after `t` periods; `vld` and `busy` are the delays of the input and the output. -/
def run (input : Nat → Byte) (vld busy : Nat → Bool) (b : Board) : Nat → Board
  | 0 => b.reset
  | t + 1 => (run input vld busy b t).clock ((run input vld busy b t).inputs input (vld t) (busy t))

/-- How many instructions were fetched in the first `t` periods. -/
def fetches (input : Nat → Byte) (vld busy : Nat → Bool) (b : Board) : Nat → Nat
  | 0 => 0
  | t + 1 => fetches input vld busy b t +
    if (run input vld busy b t).presentState = .sfetch then 1 else 0

end Board

end Cpu
