import FitProjects.Lib.Network
import Mathlib.Data.List.Range

/-! # Enumeration sort

The processes of `proj1/es.cpp`. The master sends each number to the `x` of one slave and all numbers
through the `y` of all slaves. Each slave counts in `c` the place of its `x`, sends it to the slave
with this number, and the numbers are shifted out through the `z` of the slaves. -/

namespace EnumerationSort

open MessagePassing

def EMPTY : UInt16 := 65535

inductive Tags where
  | tag_x
  | tag_y
  | tag_z
  | tag_o
  deriving DecidableEq

open Tags

/-- The variables of a process at its end. -/
structure Vars where
  x : UInt16 := EMPTY
  z : UInt16 := EMPTY
  c : UInt16 := 1

abbrev Program := Proc Tags UInt16 String

/-- `file` has the bytes of the input file, if it is there. -/
def master (file : Option (List UInt8)) (numProcs : Nat) : Program Vars :=
  match file with
  | none => return {}
  | some bytes => do
    let numbers : List UInt16 := List.replicate (numProcs - 1) 0
    (bytes.zipIdx 1).forM fun (byte, i) => do
      let number := byte.toUInt16
      when (i ≠ 1) (print " ")
      print (toString number)
      send i tag_x number
      send 1 tag_y number
    print "\n"
    let numbers ← forLoop 1 numProcs numbers fun i numbers => do
      let n ← recv (numProcs - 1) tag_o
      return numbers.set (numProcs - i - 1) n
    numbers.forM fun n => do
      print (toString n)
      print "\n"
    return {}

def slave (numProcs id : Nat) : Program Vars := do
  let x ← recv 0 tag_x
  let c ← forLoop 1 numProcs (1 : UInt16) fun i c => do
    let y ← recv (id - 1) tag_y
    when (id ≠ numProcs - 1) (send (id + 1) tag_y y)
    return if x ≠ EMPTY ∧ y ≠ EMPTY ∧ (i < id ∧ x ≥ y ∨ x > y) then c + 1 else c
  send c.toNat tag_z x
  let z ← recvAny tag_z
  let dst := if id ≠ numProcs - 1 then id + 1 else 0
  let z ← forLoop 1 id z fun _ z => do
    send dst tag_o z
    recv (id - 1) tag_o
  send dst tag_o z
  return { x, z, c }

def main (file : Option (List UInt8)) (numProcs id : Nat) : Program Vars :=
  if id = 0 then master file numProcs else slave numProcs id

/-- The program, started with `numProcs` processes. -/
def es (file : Option (List UInt8)) (numProcs : Nat) :
    System (Config Tags UInt16 String Vars) (Move Tags) :=
  network numProcs (main file numProcs)

end EnumerationSort
