import FitProjects.Lib.Network
import Mathlib.Data.List.Range

/-! # Mesh multiplication

The processes of `proj2/mm.cpp`. Process 0 reads the matrices and sends the first one to the left
border and the second one to the top border of the mesh; the values move right and down, and each
process adds up the products of those that it receives. The parsed files are the input. -/

namespace MeshMultiplication

open MessagePassing

inductive Tags where
  | tag_a
  | tag_b
  | tag_c
  | tag_p
  deriving DecidableEq

open Tags

inductive Output where
  | cout (s : String)
  | cerr (s : String)

open Output

abbrev Program := Proc Tags Int Output

/-- An input file: the dimension in its first line and the numbers after it. -/
structure File where
  dim : Int
  numbers : List Int

/-- The result of a process, and the pairs of values that it has multiplied. -/
structure Cell where
  c : Int
  used : List (Int × Int)

def getIndex (i j cols : Nat) : Nat := cols * i + j

def leftBorder (cols id : Nat) : Prop := id % cols = 0

def topBorder (cols id : Nat) : Prop := id < cols

def rightBorder (cols id : Nat) : Prop := (id + 1) % cols = 0

def bottomBorder (rows cols id : Nat) : Prop := id ≥ cols * (rows - 1)

instance (cols id : Nat) : Decidable (leftBorder cols id) := inferInstanceAs (Decidable (_ = _))

instance (cols id : Nat) : Decidable (topBorder cols id) := inferInstanceAs (Decidable (_ < _))

instance (cols id : Nat) : Decidable (rightBorder cols id) := inferInstanceAs (Decidable (_ = _))

instance (rows cols id : Nat) : Decidable (bottomBorder rows cols id) :=
  inferInstanceAs (Decidable (_ ≤ _))

/-- What process 0 does first. -/
def control (file1 file2 : File) : Program Unit := do
  when (file1.dim ≤ 0) do
    print (cerr "Invalid rows\n")
    abort
  let rows := file1.dim.toNat
  when (file2.dim ≤ 0) do
    print (cerr "Invalid cols\n")
    abort
  let cols := file2.dim.toNat
  let mat1 := file1.numbers
  let mat2 := file2.numbers
  let n := mat1.length / rows
  when (n ≠ mat2.length / cols) do
    print (cerr "Invalid size\n")
    abort
  forLoop 0 (rows * cols) () fun i _ => do
    send i tag_p n
    send i tag_p rows
    send i tag_p cols
  forLoop 0 rows () fun i _ =>
    forLoop 0 n () fun j _ =>
      send (i * cols) tag_a (mat1.getD (getIndex i j n) 0)
  forLoop 0 n () fun i _ =>
    forLoop 0 cols () fun j _ =>
      send j tag_b (mat2.getD (getIndex i j cols) 0)

/-- Receive a row or a column from process 0. -/
def receiveVec (n : Nat) (tag : Tags) : Program (List Int) :=
  forLoop 0 n [] fun _ vec => do
    let number ← recv 0 tag
    return vec ++ [number]

def mesh (rows cols n id : Nat) (vecA vecB : List Int) : Program Cell :=
  forLoop 0 n { c := 0, used := [] } fun i s => do
    let a ← (if leftBorder cols id then pure (vecA.getD i 0) else recv (id - 1) tag_a)
    let b ← (if topBorder cols id then pure (vecB.getD i 0) else recv (id - cols) tag_b)
    when (¬rightBorder cols id) (send (id + 1) tag_a a)
    when (¬bottomBorder rows cols id) (send (id + cols) tag_b b)
    return { c := s.c + a * b, used := s.used ++ [(a, b)] }

/-- What process 0 does last. -/
def gather (rows cols numProcs : Nat) : Program Unit := do
  let result ← forLoop 0 numProcs [] fun i result => do
    let number ← recv i tag_c
    return result ++ [number]
  print (cout (toString rows ++ ":" ++ toString cols ++ "\n"))
  forLoop 0 result.length () fun i _ => do
    print (cout (toString (result.getD i 0)))
    print (cout (if (i + 1) % cols = 0 then "\n" else " "))

def main (file1 file2 : File) (numProcs id : Nat) : Program Cell := do
  when (id = 0) (control file1 file2)
  let n := (← recv 0 tag_p).toNat
  let rows := (← recv 0 tag_p).toNat
  let cols := (← recv 0 tag_p).toNat
  let vecA ← (if leftBorder cols id then receiveVec n tag_a else pure [])
  let vecB ← (if topBorder cols id then receiveVec n tag_b else pure [])
  let s ← mesh rows cols n id vecA vecB
  send 0 tag_c s.c
  when (id = 0) (gather rows cols numProcs)
  return s

/-- The program, started with `numProcs` processes. -/
def mm (file1 file2 : File) (numProcs : Nat) : System (Config Tags Int Output Cell) (Move Tags) :=
  network numProcs (main file1 file2 numProcs)

end MeshMultiplication
