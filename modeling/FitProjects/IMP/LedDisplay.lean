import Mathlib.Algebra.Ring.Int.Defs
import Mathlib.Algebra.Group.Nat.Defs
import Mathlib.Data.BitVec
import Mathlib.Data.List.Basic

/-! # The display

The main loop of `IMP/Sources/main.c`. An `int` has 16 bits and wraps around, `%` takes the sign of
the dividend, `>>` is arithmetic. A shift by a negative count is undefined, as is one by at least
16, and a function that makes one returns `none`. The registers `*buttons` and `*slider` are inputs
of an iteration; every read of `*buttons` may give another value. -/

namespace LedDisplay

abbrev Byte := BitVec 8

def init : Byte := 1

def horiz : Byte := 2

def vertical : Byte := 4

def login : Vector Byte 64 := #v[
  0, 66, 36, 24, 24, 36, 66, 0,
  0, 126, 12, 24, 24, 12, 126, 0,
  0, 0, 0, 126, 126, 0, 0, 0,
  0, 126, 126, 24, 52, 102, 66, 0,
  0, 30, 62, 96, 96, 62, 30, 0,
  0, 0, 76, 82, 82, 34, 0, 0,
  0, 0, 8, 4, 126, 0, 0, 0,
  0, 0, 94, 82, 82, 114, 0, 0]

/-- The values of `*buttons` at the tests of one `checkButtons`. -/
structure Reads where
  first : Byte
  second : Byte
  third : Byte

/-- The inputs of one iteration: `checkButtons` at its start, the slider, and the calls of
`checkButtons` in `delay`. -/
structure Iteration where
  start : Reads
  slider : Byte
  delay : Nat → Reads

/-- The variables of `main`, the global `rotate` and the columns of the display. -/
structure State where
  x : Int
  y : Int
  rotate : Byte
  display : List Byte

/-- The new value of `rotate`. -/
def checkButtons (rotate : Byte) (buttons : Reads) : Byte :=
  if buttons.first &&& init ≠ 0 then 0
  else if buttons.second &&& horiz ≠ 0 then horiz
  else if buttons.third &&& vertical ≠ 0 then vertical
  else rotate

def delay (rotate : Byte) (it : Iteration) : Byte :=
  let speed := 4300 - it.slider.toNat * 16
  (List.range speed).foldl (fun rotate i => checkButtons rotate (it.delay i)) rotate

def shiftRight (a : BitVec 16) (n : Int) : Option (BitVec 16) :=
  if 0 ≤ n ∧ n < 16 then some (a.sshiftRight n.toNat) else none

def shiftLeft (a : BitVec 16) (n : Int) : Option (BitVec 16) :=
  if 0 ≤ n ∧ n < 16 then some (a <<< n.toNat) else none

/-- `login[index]`. -/
def loginAt (index : Int) : Option Byte :=
  if h : 0 ≤ index ∧ index < 64 then some (login.get ⟨index.toNat, by omega⟩) else none

/-- One round of the loop of `redraw`; `y` is the remainder already. -/
def redrawColumn (x y : Int) (i : Nat) : Option Byte := do
  let index := ((i - x).bmod (2 ^ 16)).tmod 64
  let index := if index < 0 then index + 64 else index
  let ch ← loginAt index
  let right ← shiftRight (ch.setWidth 16) y
  let left ← shiftLeft (ch.setWidth 16) (8 - y)
  some ((right ||| left).setWidth 8)

/-- `redraw`: the 32 columns that it writes. -/
def redraw (x y : Int) : Option (List Byte) :=
  let y := y.tmod 8
  (List.range 32).mapM (redrawColumn x y)

/-- One iteration of `main`. -/
def iteration (s : State) (it : Iteration) : Option State := do
  let rotate := checkButtons s.rotate it.start
  let x := if rotate = 0 then 0 else if rotate = horiz then (s.x + 1).bmod (2 ^ 16) else s.x
  let y :=
    if rotate = 0 then 0 else if rotate = horiz then s.y
    else if rotate = vertical then (s.y + 1).bmod (2 ^ 16) else s.y
  let display ← redraw x y
  some { x, y, rotate := delay rotate it, display }

/-- `main` before its loop; the display shows anything. -/
def start (display : List Byte) : State := { x := 0, y := 0, rotate := 0, display }

/-- The first iterations of the loop. -/
def run (display : List Byte) (its : List Iteration) : Option State :=
  its.foldlM iteration (start display)

/-! ## Steps since the last init -/

/-- The values of `rotate` that `main` tests. -/
def tested (rotate : Byte) : List Iteration → List Byte
  | [] => []
  | it :: its =>
    checkButtons rotate it.start :: tested (delay (checkButtons rotate it.start) it) its

/-- The value of `rotate` after some iterations. -/
def rotateAfter (rotate : Byte) : List Iteration → Byte
  | [] => rotate
  | it :: its => rotateAfter (delay (checkButtons rotate it.start) it) its

/-- The steps in the direction `dir` since the last iteration that found `rotate` to be 0. -/
def steps (dir : Byte) (its : List Iteration) : Nat :=
  ((tested 0 its).reverse.takeWhile (· ≠ 0)).count dir

/-- Column `i` of the login that has moved by `X` columns and `Y` rows. -/
def column (X Y : Nat) (i : Nat) : Byte :=
  (login.get ⟨(((i : Int) - X) % 64).toNat, by omega⟩).rotateRight (Y % 8)

theorem tested_concat (rotate : Byte) (its : List Iteration) (it : Iteration) :
    tested rotate (its ++ [it]) =
      tested rotate its ++ [checkButtons (rotateAfter rotate its) it.start] := by
  induction its generalizing rotate with
  | nil => rfl
  | cons it' its ih => simp [tested, rotateAfter, ih]

theorem rotateAfter_concat (rotate : Byte) (its : List Iteration) (it : Iteration) :
    rotateAfter rotate (its ++ [it]) =
      delay (checkButtons (rotateAfter rotate its) it.start) it := by
  induction its generalizing rotate with
  | nil => rfl
  | cons it' its ih => simp [rotateAfter, ih]

theorem steps_concat (dir : Byte) (its : List Iteration) (it : Iteration) :
    steps dir (its ++ [it]) =
      if checkButtons (rotateAfter 0 its) it.start = 0 then 0
      else if checkButtons (rotateAfter 0 its) it.start = dir then steps dir its + 1
      else steps dir its := by
  rw [steps, tested_concat, List.reverse_append, List.reverse_singleton, List.singleton_append]
  generalize checkButtons (rotateAfter 0 its) it.start = rotate
  by_cases hinit : rotate = 0
  · rw [List.takeWhile_cons_of_neg (by simp [hinit]), if_pos hinit, List.count_nil]
  · rw [List.takeWhile_cons_of_pos (by simpa using hinit), if_neg hinit, List.count_cons, ← steps]
    by_cases hdir : rotate = dir <;> simp [hdir]

/-! ## One redraw -/

/-- The corrected remainder does not depend on how often `x` and the difference wrapped around. -/
theorem index_eq (i X : Int) :
    (if ((i - X.bmod (2 ^ 16)).bmod (2 ^ 16)).tmod 64 < 0 then
        ((i - X.bmod (2 ^ 16)).bmod (2 ^ 16)).tmod 64 + 64
      else ((i - X.bmod (2 ^ 16)).bmod (2 ^ 16)).tmod 64) = (i - X) % 64 := by
  have hmod : (i - X.bmod (2 ^ 16)).bmod (2 ^ 16) % 64 = (i - X) % 64 := by
    have := Int.bmod_eq_self_sub_mul_bdiv X (2 ^ 16)
    have := Int.bmod_eq_self_sub_mul_bdiv (i - X.bmod (2 ^ 16)) (2 ^ 16)
    omega
  rw [← hmod, Int.tmod_eq_emod]
  split_ifs <;> omega

/-- The two shifts rotate a byte. -/
theorem rotate_eq (ch : Byte) {n : Nat} (hn : n < 8) :
    ((ch.setWidth 16).sshiftRight n ||| (ch.setWidth 16) <<< (8 - n)).setWidth 8 =
      ch.rotateRight n := by
  have hmsb : (ch.setWidth 16).msb = false := by simp [BitVec.msb_setWidth]
  have hright : ((ch.setWidth 16) >>> n).setWidth 8 = ch >>> n := by
    rw [← BitVec.setWidth_ushiftRight (by decide), BitVec.setWidth_setWidth_of_le _ (by decide)]
    simp
  rw [BitVec.sshiftRight_eq_of_msb_false hmsb, BitVec.setWidth_or, hright,
    BitVec.setWidth_shiftLeft_of_le (by decide), BitVec.setWidth_setWidth_of_le _ (by decide),
    BitVec.setWidth_eq, BitVec.rotateRight_def, Nat.mod_eq_of_lt hn]

/-- A round of the loop with a remainder that is not negative. -/
theorem redrawColumn_eq (X Y i : Nat) :
    redrawColumn ((X : Int).bmod (2 ^ 16)) (Y % 8 : Nat) i = some (column X Y i) := by
  have hindex : 0 ≤ ((i : Int) - X) % 64 ∧ ((i : Int) - X) % 64 < 64 := by omega
  have hright : (0 : Int) ≤ (Y % 8 : Nat) ∧ ((Y % 8 : Nat) : Int) < 16 := by omega
  have hleft : (0 : Int) ≤ 8 - (Y % 8 : Nat) ∧ (8 : Int) - (Y % 8 : Nat) < 16 := by omega
  have hcount : ((8 : Int) - (Y % 8 : Nat)).toNat = 8 - Y % 8 := by omega
  simp only [redrawColumn, index_eq, loginAt, dif_pos hindex, shiftRight, if_pos hright, shiftLeft,
    if_pos hleft, Int.toNat_natCast, hcount, Option.bind_eq_bind, Option.bind_some]
  rw [rotate_eq _ (by omega), column]

theorem redraw_eq {x y : Int} {X Y : Nat} (hx : x = (X : Int).bmod (2 ^ 16))
    (hy : y.tmod 8 = (Y % 8 : Nat)) : redraw x y = some ((List.range 32).map (column X Y)) := by
  rw [redraw, hx, hy]
  simp only [funext (redrawColumn_eq X Y)]
  exact List.mapM_pure

/-- A negative remainder is the count of the first shift. -/
theorem redraw_eq_none {x y : Int} (hy : y.tmod 8 < 0) : redraw x y = none := by
  have hcol : redrawColumn x (y.tmod 8) 0 = none := by
    have hneg : ¬ (0 ≤ y.tmod 8 ∧ y.tmod 8 < 16) := by omega
    simp [redrawColumn, shiftRight, hneg]
  rw [redraw, show List.range 32 = 0 :: (List.range 31).map (· + 1) from List.range_succ_eq_map,
    List.mapM_cons, hcol]
  rfl

/-! ## Runs -/

variable {display : List Byte} {its : List Iteration} {it : Iteration} {s s' : State}

/-- The variables hold the steps that were made. -/
structure Tracks (its : List Iteration) (s : State) : Prop where
  x : s.x = (steps horiz its : Int).bmod (2 ^ 16)
  y : s.y = (steps vertical its : Int).bmod (2 ^ 16)
  rotate : s.rotate = rotateAfter 0 its

theorem Tracks.start : Tracks [] (start display) := ⟨rfl, rfl, rfl⟩

theorem tmod_of_le {Y : Nat} (hY : Y ≤ 32768) :
    ((Y : Int).bmod (2 ^ 16)).tmod 8 = (Y % 8 : Nat) := by
  rcases Nat.lt_or_eq_of_le hY with hlt | rfl
  · have hbmod : (Y : Int).bmod (2 ^ 16) = Y := Int.bmod_eq_of_le (by omega) (by omega)
    rw [hbmod, Int.tmod_eq_emod_of_nonneg (by omega)]
    omega
  · decide

theorem wrap_succ (n : Nat) :
    ((n : Int).bmod (2 ^ 16) + 1).bmod (2 ^ 16) = ((n + 1 : Nat) : Int).bmod (2 ^ 16) := by
  rw [Int.bmod_add_bmod, Int.natCast_succ]

/-- What one iteration does as long as the counter of the rows has not gone through its smallest
value, and what it does then. -/
theorem Tracks.iteration (h : Tracks its s) (hle : steps vertical its ≤ 32768) (it : Iteration) :
    (steps vertical (its ++ [it]) ≤ 32768 →
      ∃ s', iteration s it = some s' ∧ Tracks (its ++ [it]) s' ∧
        s'.display = (List.range 32).map
          (column (steps horiz (its ++ [it])) (steps vertical (its ++ [it])))) ∧
      (¬ steps vertical (its ++ [it]) ≤ 32768 → LedDisplay.iteration s it = none) := by
  let rotate := checkButtons s.rotate it.start
  let x := if rotate = 0 then 0 else if rotate = horiz then (s.x + 1).bmod (2 ^ 16) else s.x
  let y :=
    if rotate = 0 then 0 else if rotate = horiz then s.y
    else if rotate = vertical then (s.y + 1).bmod (2 ^ 16) else s.y
  have hrotate : rotate = checkButtons (rotateAfter 0 its) it.start := by rw [← h.rotate]
  have hx : x = (steps horiz (its ++ [it]) : Int).bmod (2 ^ 16) := by
    simp only [x, steps_concat, ← hrotate, h.x, wrap_succ]
    split_ifs <;> rfl
  have hy : y = (steps vertical (its ++ [it]) : Int).bmod (2 ^ 16) := by
    have hne : horiz ≠ vertical := by decide
    simp only [y, steps_concat, ← hrotate, h.y, wrap_succ]
    split_ifs with h0 h1 h2 h2
    · rfl
    · exact absurd (h1.symm.trans h2) hne
    · rfl
    · rfl
    · rfl
  have hit : LedDisplay.iteration s it =
      (redraw x y).map fun display => { x, y, rotate := delay rotate it, display } := by
    rw [LedDisplay.iteration, Option.map_eq_bind]
    rfl
  refine ⟨fun hle' => ?_, fun hgt => ?_⟩
  · rw [hit, redraw_eq hx (hy ▸ tmod_of_le hle')]
    refine ⟨_, rfl, ⟨hx, hy, ?_⟩, rfl⟩
    rw [rotateAfter_concat, ← hrotate]
  · have hsucc : steps vertical (its ++ [it]) = 32769 := by
      rw [steps_concat] at hgt ⊢
      split_ifs at hgt ⊢ <;> omega
    rw [hit, redraw_eq_none, Option.map_none]
    rw [hy, hsucc]
    decide

/-- Either the rows never moved more than 32768 times in a row, or the run is undefined. -/
theorem run_cases (display : List Byte) (its : List Iteration) :
    (∀ its', its' <+: its → steps vertical its' ≤ 32768) ∧
        (∃ s, run display its = some s ∧ Tracks its s ∧ (its ≠ [] → s.display =
          (List.range 32).map (column (steps horiz its) (steps vertical its)))) ∨
      (∃ its', its' <+: its ∧ ¬ steps vertical its' ≤ 32768) ∧ run display its = none := by
  induction its using List.reverseRecOn with
  | nil =>
    refine .inl ⟨fun its' hits' => ?_, _, rfl, .start, fun h => absurd rfl h⟩
    obtain rfl := List.prefix_nil.mp hits'
    decide
  | append_singleton its it ih =>
    have hrun : run display (its ++ [it]) = (run display its).bind fun s => iteration s it := by
      rw [run, List.foldlM_append]
      simp [run]
    rcases ih with ⟨hle, s, hs, htracks, -⟩ | ⟨⟨its', hits', hgt⟩, hs⟩
    · obtain ⟨hstep, hundef⟩ := htracks.iteration (hle its (List.prefix_refl its)) it
      by_cases hle' : steps vertical (its ++ [it]) ≤ 32768
      · obtain ⟨s', hs', htracks', hdisplay⟩ := hstep hle'
        refine .inl ⟨fun its' hits' => ?_, s', ?_, htracks', fun _ => hdisplay⟩
        · rcases List.prefix_concat_iff.mp hits' with rfl | hits'
          · exact hle'
          · exact hle its' hits'
        · rw [hrun, hs, Option.bind_some, hs']
      · refine .inr ⟨⟨_, List.prefix_refl _, hle'⟩, ?_⟩
        rw [hrun, hs, Option.bind_some, hundef hle']
    · refine .inr ⟨⟨its', hits'.trans (List.prefix_append its [it]), hgt⟩, ?_⟩
      rw [hrun, hs, Option.bind_none]

/-- After some iterations the display shows the login moved by all the steps made since the last
init. -/
def ShowsLogin (display : List Byte) (its : List Iteration) : Prop :=
  ∃ s, run display its = some s ∧ (its ≠ [] → s.display =
    (List.range 32).map (column (steps horiz its) (steps vertical its)))

/-- The display follows the steps in exactly the runs that never move more than 32768 rows without
an init. -/
theorem showsLogin_iff (display : List Byte) (its : List Iteration) :
    ShowsLogin display its ↔ ∀ its', its' <+: its → steps vertical its' ≤ 32768 := by
  rcases run_cases display its with ⟨hle, s, hs, -, hdisplay⟩ | ⟨⟨its', hits', hgt⟩, hs⟩
  · exact iff_of_true ⟨s, hs, hdisplay⟩ hle
  · refine iff_of_false ?_ fun h => hgt (h its' hits')
    rintro ⟨s, hs', -⟩
    rw [hs] at hs'
    exact absurd hs' (by simp)

/-- The button for the vertical direction is held. -/
def holdVertical : Iteration :=
  { start := ⟨vertical, vertical, vertical⟩, slider := 128,
    delay := fun _ => ⟨vertical, vertical, vertical⟩ }

theorem steps_holdVertical (n : Nat) :
    steps vertical (List.replicate n holdVertical) = n := by
  have hcheck (rotate : Byte) : checkButtons rotate holdVertical.start = vertical := by
    have hinit : vertical &&& init = 0 := by decide
    have hhoriz : vertical &&& horiz = 0 := by decide
    have hvertical : vertical &&& vertical ≠ 0 := by decide
    rw [checkButtons, holdVertical, if_neg (not_not.mpr hinit), if_neg (not_not.mpr hhoriz),
      if_pos hvertical]
  induction n with
  | zero => rfl
  | succ n ih =>
    rw [List.replicate_succ', steps_concat, hcheck, if_neg (by decide), if_pos rfl, ih]

/-- After 32769 steps the count of the shift is -7. -/
theorem not_showsLogin_holdVertical :
    ¬ ShowsLogin (List.replicate 32 0) (List.replicate 32769 holdVertical) := by
  rintro ⟨s, hs, -⟩
  obtain ⟨hle, -⟩ | ⟨-, hs'⟩ := run_cases (List.replicate 32 0) (List.replicate 32769 holdVertical)
  · exact absurd (hle _ (List.prefix_refl _)) (by rw [steps_holdVertical]; decide)
  · rw [hs] at hs'
    exact absurd hs' (by simp)

end LedDisplay
