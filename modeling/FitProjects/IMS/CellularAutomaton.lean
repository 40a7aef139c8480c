import FitProjects.Lib.Torus
import Mathlib.Logic.Function.Basic
import Mathlib.Algebra.Order.Field.Rat
import Mathlib.Data.Rat.Defs

/-! # The cellular automaton

The class `CA` of `IMS/CA.cpp` with a lattice of `m` times `m` cells. Probabilities are rational
numbers; the counters, the step and the life times are of type `int` and wrap around. What is drawn
at random, and how the floating point ratio of resistant and susceptible cells compares with the one
at the beginning, are inputs. `none` stands for a failed assertion or an access outside of the
lattice or the statistics. -/

namespace CellularAutomaton

open Torus

/-- `Cell::State`. -/
inductive State
  | healthyR
  | healthyS
  | infectedR
  | infectedS
  | defInfected
  | dead
  deriving DecidableEq

namespace State

/-- All states in the order of the enumeration. -/
def all : List State := [healthyR, healthyS, infectedR, infectedS, defInfected, dead]

/-- The value of an enumerator. -/
def toInt : State → ℤ
  | healthyR => 0
  | healthyS => 1
  | infectedR => 2
  | infectedS => 3
  | defInfected => 4
  | dead => 5

/-- The conversion `Cell::State(n)`; other numbers are no states. -/
def ofInt? (n : ℤ) : Option State := all.find? fun s => s.toInt = n

end State

/-- The value of an `int` of 32 bits. -/
def int (n : ℤ) : ℤ := n.bmod (2 ^ 32)

structure Cell where
  state : State
  lifeTime : ℤ
  deriving DecidableEq

abbrev Lattice (m : ℕ) := Place m → Cell

/-- The fields `R` and `S` of `infectedCells`. -/
structure InfectedCells where
  R : ℤ
  S : ℤ
  deriving DecidableEq

/-- What the `n`-th draw gives: a number of `distribution`, a life time, and, for the two sums `r` and
`s`, whether `r / s` is greater than `ratioRS`. -/
structure Random where
  distribution : ℕ → ℚ
  randLifeTime : ℕ → ℤ
  exceedsRatio : ℕ → ℤ → ℤ → Bool

def cellLifespan : ℤ := 48
def infectRLifespan : ℤ := 6
def infectSLifespan : ℤ := 4
def inverseRate1 : ℚ := 1 / 1000
def inverseRate2 : ℚ := 1 / 1000
def infectRateR : ℚ := 5 / 10
def infectRateS : ℚ := 6 / 10
def replenishment : ℚ := 99 / 100
def infection : ℚ := 1 / 1000
def hbv : ℚ := 5 / 100

/-- The lifespan of a state; dead cells have none. -/
def lifespan : State → Option ℤ
  | .healthyR | .healthyS | .defInfected => some cellLifespan
  | .infectedR => some infectRLifespan
  | .infectedS => some infectSLifespan
  | .dead => none

def checkCellLife (state : State) (actualLength : ℤ) : Bool :=
  match lifespan state with
  | some n => actualLength < n
  | none => true

/-- The members of the class that change; `actualCells` and `nextCells` are swapped in every step. A
state that a map does not have counts zero. -/
structure CA (m : ℕ) where
  actualCells : Lattice m
  nextCells : Lattice m
  counter : State → ℤ
  statistics : List (State → ℤ)
  step : ℤ
  drawn : ℕ

/-- `map[s] += n`. -/
def add (map : State → ℤ) (s : State) (n : ℤ) : State → ℤ :=
  Function.update map s (int (map s + n))

/-- The coordinate behind a border is the one at the other border. -/
def wrap (m : ℕ) (i : ℤ) : ℤ := if i = -1 then m - 1 else if i = m then 0 else i

/-- An element of the two vectors of a lattice. -/
def Lattice.at? {m : ℕ} (cells : Lattice m) (a b : ℤ) : Option Cell :=
  if h : (0 ≤ a ∧ a < m) ∧ 0 ≤ b ∧ b < m then
    some (cells (⟨a.toNat, by omega⟩, ⟨b.toNat, by omega⟩))
  else none

/-- The counting `switch`. -/
def InfectedCells.tally (infected : InfectedCells) (cell : Cell) : InfectedCells :=
  match cell.state with
  | .infectedS => { infected with S := infected.S + 1 }
  | .infectedR => { infected with R := infected.R + 1 }
  | _ => infected

def countInfectedNeighbors {m : ℕ} (actualCells : Lattice m) (x y : ℤ) : Option InfectedCells :=
  if ¬(0 ≤ x ∧ x < m ∧ 0 ≤ y ∧ y < m) then none else
    [x - 1, x, x + 1].foldlM (fun infected i =>
      [y - 1, y, y + 1].foldlM (fun infected j =>
        if i = x ∧ j = y then some infected else do
          let cell ← actualCells.at? (wrap m i) (wrap m j)
          some (infected.tally cell)) infected) ⟨0, 0⟩

namespace CA

variable {m : ℕ} (rand : Random) (ca : CA m)

/-- `checkProbability`, with its assertion. -/
def checkProbability (chance : ℚ) : Option (Bool × CA m) :=
  if 0 ≤ chance ∧ chance ≤ 1 then
    some (rand.distribution ca.drawn ≤ chance, { ca with drawn := ca.drawn + 1 })
  else none

/-- `statistics[step-1]`; a negative index is a large one when it is taken for a `size_t`. -/
def previous? : Option (State → ℤ) :=
  if 0 ≤ int (ca.step - 1) then ca.statistics[(int (ca.step - 1)).toNat]? else none

def count (s : State) (n : ℤ) : CA m := { ca with counter := add ca.counter s n }

def setNext (p : Place m) (c : Cell) : CA m :=
  { ca with nextCells := Function.update ca.nextCells p c }

/-! ### `gen` -/

/-- The last lines of `gen`, which every `break` leads to. -/
def keep (p : Place m) (cell : Cell) : CA m := ca.setNext p ⟨cell.state, cell.lifeTime⟩

/-- The case `HEALTHY_S`, which the case `HEALTHY_R` falls through to. -/
def genHealthy (p : Place m) (cell : Cell) : Option (CA m) := do
  let infected ← countInfectedNeighbors ca.actualCells p.1.val p.2.val
  let prob := infectRateR * (infected.R / 8) + infectRateS * (infected.S / 8)
  let (b, ca) ← ca.checkProbability rand prob
  if b then do
    let ca :=
      if cell.state = .healthyR then (ca.count .healthyR (-1)).count .infectedR 1
      else (ca.count .healthyS (-1)).count .infectedS 1
    let state ← State.ofInt? (cell.state.toInt + 2)
    some (ca.setNext p ⟨state, 0⟩)
  else some (ca.keep p cell)

/-- The cases `INFECTED_R` and `INFECTED_S`. -/
def genInfected (p : Place m) (cell : Cell) : Option (CA m) := do
  let (b, ca) ← ca.checkProbability rand inverseRate1
  if b then do
    let ca :=
      if cell.state = .infectedR then (ca.count .healthyR 1).count .infectedR (-1)
      else (ca.count .healthyS 1).count .infectedS (-1)
    let state ← State.ofInt? (cell.state.toInt - 2)
    some (ca.setNext p ⟨state, 0⟩)
  else do
    let (b, ca) ← ca.checkProbability rand inverseRate2
    if b then some (ca.setNext p ⟨.defInfected, 0⟩) else some (ca.keep p cell)

/-- The case `DEAD`. -/
def genDead (p : Place m) (cell : Cell) : Option (CA m) := do
  let (b, ca) ← ca.checkProbability rand replenishment
  if b then do
    let (b, ca) ← ca.checkProbability rand infection
    let state := if b then State.infectedR else .healthyR
    some ((ca.count state 1).setNext p ⟨state, 0⟩)
  else some (ca.keep p cell)

def gen (p : Place m) : Option (CA m) := do
  let map ← ca.previous?
  let cell := { ca.actualCells p with lifeTime := int ((ca.actualCells p).lifeTime + 1) }
  let ca := { ca with actualCells := Function.update ca.actualCells p cell }
  if cell.state ≠ .dead ∧ checkCellLife cell.state cell.lifeTime = false then
    some ((ca.count cell.state (-1)).setNext p ⟨.dead, 0⟩)
  else match cell.state with
  | .healthyR =>
    let r := int (int (int (map .healthyR + map .infectedR) + ca.counter .healthyR) +
      ca.counter .infectedR)
    let s := int (int (int (map .healthyS + map .infectedS) + ca.counter .healthyS) +
      ca.counter .infectedS)
    if rand.exceedsRatio ca.drawn r s then
      some (((ca.count .healthyR (-1)).count .healthyS 1).setNext p ⟨.healthyS, cell.lifeTime⟩)
    else ca.genHealthy rand p cell
  | .healthyS => ca.genHealthy rand p cell
  | .infectedR | .infectedS => ca.genInfected rand p cell
  | .dead => ca.genDead rand p cell
  | .defInfected => some (ca.keep p cell)

/-! ### Whole lattices -/

/-- The body of the loops of `nextStep`. -/
def nextCell (acc : CA m × (State → ℤ)) (p : Place m) : Option (CA m × (State → ℤ)) := do
  let ca ← acc.1.gen rand p
  some (ca, add acc.2 (ca.nextCells p).state 1)

def nextStep : Option (CA m) := do
  let ca := { ca with step := int (ca.step + 1), counter := fun _ => 0 }
  let (ca, map) ← (places m).foldlM (nextCell rand) (ca, fun _ => 0)
  some { ca with
    actualCells := ca.nextCells
    nextCells := ca.actualCells
    statistics := ca.statistics ++ [map] }

/-- The body of the loops of `generateLattice`. -/
def generateCell (rRate : ℚ) (acc : CA m × (State → ℤ)) (p : Place m) :
    Option (CA m × (State → ℤ)) := do
  let (ca, map) := acc
  let (resistant, ca) ← ca.checkProbability rand rRate
  let (infected, ca) ← ca.checkProbability rand hbv
  let state :=
    if resistant then if infected then State.infectedR else .healthyR
    else if infected then .infectedS else .healthyS
  let cell : Cell := ⟨state, rand.randLifeTime ca.drawn⟩
  some ({ ca with
    actualCells := Function.update ca.actualCells p cell
    drawn := ca.drawn + 1 }, add map state 1)

def generateLattice (rRate : ℚ) : Option (CA m) := do
  let (ca, map) ← (places m).foldlM (generateCell rand rRate) (ca, fun _ => 0)
  some { ca with statistics := ca.statistics ++ [map] }

/-- The constructor: healthy resistant cells, and no statistics. -/
def new (m : ℕ) : CA m where
  actualCells _ := ⟨.healthyR, 0⟩
  nextCells _ := ⟨.healthyR, 0⟩
  counter _ := 0
  statistics := []
  step := 0
  drawn := 0

/-- `generateLattice` and `n` calls of `nextStep`. -/
def run (m : ℕ) (rRate : ℚ) : ℕ → Option (CA m)
  | 0 => (new m).generateLattice rand rRate
  | n + 1 => (run m rRate n).bind fun ca => ca.nextStep rand

end CA

end CellularAutomaton
