import Mathlib.Data.List.Basic
import Mathlib.Algebra.Group.Nat.Defs

/-! # Bytes in memory

Numbers as bytes, the least significant one first, and copies into a buffer. -/

/-- The `w` low bytes of a number. -/
def leBytes : Nat → Nat → List UInt8
  | 0, _ => []
  | w + 1, n => UInt8.ofNat n :: leBytes w (n / 256)

/-- The number in memory. -/
def leNat (bytes : List UInt8) : Nat := bytes.foldr (fun b n => b.toNat + 256 * n) 0

/-- `memcpy` to a place in a buffer. What would lie behind the end of the buffer is not part of
it. -/
def poke (buffer : List UInt8) (pos : Nat) (bytes : List UInt8) : List UInt8 :=
  (buffer.take pos ++ bytes ++ buffer.drop (pos + bytes.length)).take buffer.length

/-- The bytes stand at a place of a memory. -/
def Stands (data : Nat → UInt8) (start : Nat) (bytes : List UInt8) : Prop :=
  ∀ i (h : i < bytes.length), data (start + i) = bytes[i]

variable {a b c bytes : List UInt8} {n w : Nat} {data : Nat → UInt8} {start : Nat}

@[simp] theorem stands_nil : Stands data start [] := fun _ h => absurd h (Nat.not_lt_zero _)

@[simp] theorem stands_cons {x : UInt8} :
    Stands data start (x :: bytes) ↔ data start = x ∧ Stands data (start + 1) bytes := by
  constructor
  · refine fun h => ⟨h 0 (Nat.succ_pos _), fun i hi => ?_⟩
    have hx := h (i + 1) (Nat.succ_lt_succ hi)
    rwa [← Nat.add_assoc, Nat.add_right_comm] at hx
  · rintro ⟨hx, h⟩ i hi
    cases i with
    | zero => exact hx
    | succ i =>
      have hi' := h i (Nat.lt_of_succ_lt_succ hi)
      rwa [Nat.add_assoc, Nat.add_comm 1] at hi'

theorem stands_append :
    Stands data start (a ++ b) ↔ Stands data start a ∧ Stands data (start + a.length) b := by
  induction a generalizing start with
  | nil => simp
  | cons x a ih =>
    rw [List.cons_append, stands_cons, stands_cons, ih, List.length_cons, and_assoc,
      Nat.add_assoc start, Nat.add_comm 1]

/-- The bytes of a list that is read with a default. -/
theorem stands_getD (behind : Nat → UInt8) (bytes : List UInt8) :
    Stands (fun i => bytes.getD i (behind i)) 0 bytes := by
  intro i hi
  simp [hi]

theorem leNat_cons (b : UInt8) (bytes : List UInt8) :
    leNat (b :: bytes) = b.toNat + 256 * leNat bytes := rfl

@[simp] theorem length_leBytes (w n : Nat) : (leBytes w n).length = w := by
  induction w generalizing n with
  | zero => rfl
  | succ w ih => rw [leBytes, List.length_cons, ih]

theorem leNat_leBytes (w n : Nat) : leNat (leBytes w n) = n % 256 ^ w := by
  induction w generalizing n with
  | zero => exact (Nat.mod_one n).symm
  | succ w ih =>
    have hpow : n % 256 ^ (w + 1) = n % 256 + 256 * (n / 256 % 256 ^ w) := by
      rw [Nat.pow_succ', Nat.mod_mul]
    rw [leBytes, leNat_cons, ih, UInt8.toNat_ofNat', hpow]

theorem leNat_leBytes_of_lt (h : n < 256 ^ w) : leNat (leBytes w n) = n := by
  rw [leNat_leBytes, Nat.mod_eq_of_lt h]

/-- A copy inside a buffer. -/
theorem poke_append (hlen : b.length = bytes.length) :
    poke (a ++ b ++ c) a.length bytes = a ++ bytes ++ c := by
  have htake : (a ++ b ++ c).take a.length = a := by simp
  have hdrop : (a ++ b ++ c).drop (a.length + bytes.length) = c := by
    rw [← hlen, ← List.length_append, List.drop_left]
  rw [poke, htake, hdrop]
  exact List.take_of_length_le (by simp [hlen])

/-- A copy that reaches to the end of the buffer or behind it. -/
theorem poke_append_of_le (hlen : b.length ≤ bytes.length) :
    poke (a ++ b) a.length bytes = a ++ bytes.take b.length := by
  rw [poke, List.take_left, List.drop_of_length_le (by simpa using hlen), List.append_nil,
    List.length_append, List.take_length_add_append]

theorem take_leBytes (h : k ≤ w) (n : Nat) : (leBytes w n).take k = leBytes k n := by
  induction k generalizing w n with
  | zero => rfl
  | succ k ih =>
    cases w with
    | zero => exact absurd h (Nat.not_succ_le_zero k)
    | succ w => rw [leBytes, List.take_succ_cons, ih (Nat.le_of_succ_le_succ h), leBytes]
