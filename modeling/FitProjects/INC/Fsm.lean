import Mathlib.Data.List.Basic
import Mathlib.Algebra.GroupWithZero.Nat

/-! # The finite state machine of the access terminal

The state machine of `fsm.vhd`, clock by clock. A state in which a code is being entered has three
branches: the key it waits for, any other key below 15, and the confirming key 15. They are the
parameters of `testKey`; the states whose branches differ have a body of their own. -/

namespace AccessTerminal

/-- For the numerals of `Fin 16`, the keys. -/
instance neZero_sixteen : NeZero 16 := ⟨by decide⟩

/-- `t_state` -/
inductive State
  | test
  | test1_1 | test1_2 | test1_3 | test1_4 | test1_5 | test1_6 | test1_7 | test1_8 | test1_9
  | test2_1 | test2_2 | test2_3 | test2_4 | test2_5 | test2_6 | test2_7 | test2_8 | test2_9
  | test2_10
  | printMessageOk | printMessageFail | finishOk | finishFail | finish
  deriving DecidableEq, Repr

/-- `KEY(14 downto 0) /= "000000000000000"` -/
def otherKey (key : BitVec 16) : Bool := key.extractLsb' 0 15 != 0

/-- The branches of a state that waits for key `k`. -/
def testKey (key : BitVec 16) (k : Nat) (accept stay : State) : State :=
  if key.getLsbD k then accept
  else if otherKey key then .finishFail
  else if key.getLsbD 15 then .printMessageFail
  else stay

/-- `next_state_logic` -/
def nextState (present : State) (key : BitVec 16) (cntOf : Bool) : State :=
  match present with
  | .test =>
    if key.getLsbD 8 then .test1_1
    else if key.getLsbD 1 then .test2_1
    else if otherKey key then .finishFail
    else if key.getLsbD 15 then .printMessageFail
    else .test
  | .test1_1 => testKey key 4 .test1_2 .test1_1
  | .test1_2 => testKey key 3 .test1_3 .test1_2
  | .test1_3 => testKey key 2 .test1_4 .test1_3
  | .test1_4 => testKey key 1 .test1_5 .test1_4
  | .test1_5 => testKey key 5 .test1_6 .test1_5
  | .test1_6 => testKey key 7 .test1_7 .test1_6
  | .test1_7 =>
    -- the only state of its kind without a branch for the other keys
    if key.getLsbD 5 then .test1_8
    else if key.getLsbD 15 then .printMessageFail
    else .test1_7
  | .test1_8 => testKey key 5 .finishOk .test1_8
  | .test2_1 => testKey key 5 .test2_2 .test2_1
  | .test2_2 => testKey key 1 .test2_3 .test2_2
  | .test2_3 => testKey key 7 .test2_4 .test2_3
  | .test2_4 => testKey key 7 .test2_5 .test2_4
  | .test2_5 => testKey key 8 .test2_6 .test2_5
  | .test2_6 => testKey key 8 .test2_7 .test2_6
  | .test2_7 => testKey key 3 .test2_8 .test2_7
  | .test2_8 => testKey key 6 .test2_9 .test2_8
  | .test2_9 => testKey key 0 .test2_10 .test2_9
  | .test2_10 => testKey key 0 .finishOk .test2_10
  | .printMessageOk => if cntOf then .finish else .printMessageOk
  | .printMessageFail => if cntOf then .finish else .printMessageFail
  | .finishOk =>
    if key.getLsbD 15 then .printMessageOk
    else if otherKey key then .finishFail
    else .finishOk
  | .finishFail => if key.getLsbD 15 then .printMessageFail else .finishFail
  | .finish => if key.getLsbD 15 then .test else .finish
  | .test1_9 => .test

/-- `sync_logic` at a rising edge of the clock. -/
def syncLogic (reset : Bool) (next : State) : State := if reset then .test else next

/-- What the terminal receives in one clock: the key pressed in it, if any, and `CNT_OF`. -/
structure Clock where
  press : Option (Fin 16)
  cntOf : Bool
  deriving DecidableEq, Repr

/-- The one-hot vector of the pressed key. -/
def keyVector : Option (Fin 16) → BitVec 16
  | none => 0
  | some k => BitVec.twoPow 16 k

/-- The state of the machine, and the keys below 15 pressed since it last entered `TEST`. -/
structure Config where
  state : State
  keys : List (Fin 16)
  deriving DecidableEq, Repr

/-- The keys below 15 of a clock. -/
def Clock.digits (c : Clock) : List (Fin 16) := c.press.toList.filter (· ≠ 15)

/-- One clock. -/
def Config.clock (m : Config) (c : Clock) : Config :=
  let next := syncLogic false (nextState m.state (keyVector c.press) c.cntOf)
  { state := next
    keys := if next = .test ∧ m.state ≠ .test then [] else m.keys ++ c.digits }

/-- The machine after `RESET`. -/
def reset : Config := ⟨syncLogic true .test, []⟩

/-- The machine after a sequence of clocks. -/
def run (cs : List Clock) : Config := cs.foldl Config.clock reset

theorem run_concat : run (cs ++ [c]) = (run cs).clock c := by
  simp [run]

/-! ### One clock, by the pressed key -/

@[simp] theorem keyVector_getLsbD : ∀ (k j : Fin 16),
    (keyVector (some k)).getLsbD j.val = decide (k = j) := by
  decide

/-- Key 15 is seen exactly when it is pressed. -/
theorem keyVector_confirm (p : Option (Fin 16)) :
    (keyVector p).getLsbD 15 = decide (p = some 15) := by
  cases p with
  | none => rfl
  | some k => exact (keyVector_getLsbD k 15).trans (by simp)

@[simp] theorem otherKey_some : ∀ k : Fin 16, otherKey (keyVector (some k)) = decide (k ≠ 15) := by
  decide

/-- What a state that waits for key `j` does with a pressed key. -/
theorem testKey_some (hj : j < 16) : testKey (keyVector (some k)) j accept stay =
    if k = ⟨j, hj⟩ then accept else if k = 15 then .printMessageFail else .finishFail := by
  have hkey : (keyVector (some k)).getLsbD j = decide (k = ⟨j, hj⟩) := keyVector_getLsbD k ⟨j, hj⟩
  simp only [testKey, hkey, keyVector_confirm, Option.some.injEq, otherKey_some]
  by_cases hk : k = 15 <;> simp [hk]

@[simp] theorem testKey_none : testKey (keyVector none) k accept stay = stay := by
  simp [testKey, keyVector, otherKey]

/-- A key leads from a state that waits for one to the message of success only if it stands in
the state. -/
theorem testKey_ne_printMessageOk (ha : accept ≠ .printMessageOk) (hs : stay ≠ .printMessageOk) :
    testKey key k accept stay ≠ .printMessageOk := by
  unfold testKey
  split
  · exact ha
  · split
    · simp
    · split
      · simp
      · exact hs

/-- The message of success is entered from the accepting state only, by key 15. -/
theorem nextState_printMessageOk (hs : s ≠ .printMessageOk)
    (h : nextState s key cntOf = .printMessageOk) : s = .finishOk ∧ key.getLsbD 15 := by
  cases s with
  | finishOk => exact ⟨rfl, by grind [nextState]⟩
  | printMessageOk => exact absurd rfl hs
  | test | test1_7 | test1_9 | printMessageFail | finishFail | finish => grind [nextState]
  | _ => exact absurd h (testKey_ne_printMessageOk (by simp) (by simp))

end AccessTerminal
