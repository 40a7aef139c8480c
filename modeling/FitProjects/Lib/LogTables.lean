import Mathlib.Algebra.Field.Defs
import Mathlib.Algebra.Group.Hom.Defs
import Mathlib.Algebra.GroupWithZero.Basic
import Mathlib.Algebra.Group.Nat.Defs
import Mathlib.Logic.Function.Iterate

/-! # A field from a table of logarithms

An additive group, an additive operator on it, and an element whose orbit under the operator is
everything but zero. The product of two elements is looked up at the sum of their logarithms; with
it the group is a field. -/

/-- A table of powers and its inverse. -/
structure LogTables (V : Type u) [AddCommGroup V] where
  shift : V →+ V
  one : V
  period : Nat
  log : V → Nat
  one_ne_zero : one ≠ 0
  iterate_period : shift^[period] one = one
  iterate_log : ∀ a, a ≠ 0 → shift^[log a] one = a
  log_lt : ∀ a, a ≠ 0 → log a < period

namespace LogTables

variable {V : Type u} [AddCommGroup V] (t : LogTables V)

/-- The table of powers. -/
def exp (i : Nat) : V := t.shift^[i] t.one

@[simp] theorem exp_zero : t.exp 0 = t.one := rfl

theorem exp_log {a : V} (ha : a ≠ 0) : t.exp (t.log a) = a := t.iterate_log a ha

theorem iterate_exp (i j : Nat) : t.shift^[i] (t.exp j) = t.exp (i + j) :=
  (Function.iterate_add_apply t.shift i j t.one).symm

@[simp] theorem iterate_shift_zero (i : Nat) : t.shift^[i] 0 = 0 :=
  Function.iterate_fixed (map_zero t.shift) i

theorem iterate_shift_add (i : Nat) (a b : V) :
    t.shift^[i] (a + b) = t.shift^[i] a + t.shift^[i] b := by
  induction i generalizing a b with
  | zero => rfl
  | succ i ih => rw [Function.iterate_succ_apply, Function.iterate_succ_apply,
      Function.iterate_succ_apply, map_add, ih]

theorem period_pos : 0 < t.period := Nat.zero_lt_of_lt (t.log_lt t.one t.one_ne_zero)

theorem exp_add_period (i : Nat) : t.exp (i + t.period) = t.exp i := by
  rw [← iterate_exp]
  exact congrArg _ t.iterate_period

theorem exp_add_mul_period (i k : Nat) : t.exp (i + k * t.period) = t.exp i := by
  induction k with
  | zero => rw [Nat.zero_mul, Nat.add_zero]
  | succ k ih => rw [Nat.succ_mul, ← Nat.add_assoc, exp_add_period, ih]

/-- Zero never comes back to one. -/
theorem exp_ne_zero (i : Nat) : t.exp i ≠ 0 := by
  intro hzero
  apply t.one_ne_zero
  have hle : i ≤ i * t.period := Nat.le_mul_of_pos_right i t.period_pos
  have hone : t.exp (i * t.period) = t.one := by
    rw [← Nat.zero_add (i * t.period), exp_add_mul_period, exp_zero]
  rw [← hone, ← Nat.sub_add_cancel hle, ← iterate_exp, hzero, iterate_shift_zero]

variable [DecidableEq V]

/-- The product by logarithms. -/
def mul (a b : V) : V := if a = 0 ∨ b = 0 then 0 else t.exp (t.log a + t.log b)

/-- The inverse by logarithms. -/
def inv (a : V) : V := if a = 0 then 0 else t.exp (t.period - t.log a)

variable {t} {a b c : V}

/-- A product applies the operator as often as the logarithm of the first factor says. -/
theorem mul_eq (ha : a ≠ 0) (b : V) : t.mul a b = t.shift^[t.log a] b := by
  rw [mul]
  split
  next h =>
    rcases h with h | rfl
    · exact absurd h ha
    · rw [iterate_shift_zero]
  next h => rw [← iterate_exp, t.exp_log (not_or.mp h).2]

theorem zero_mul (b : V) : t.mul 0 b = 0 := if_pos (Or.inl rfl)

theorem exp_mul_exp (i j : Nat) : t.mul (t.exp i) (t.exp j) = t.exp (i + j) := by
  -- the operator commutes with itself, so that the logarithm of `exp i` need not be `i`
  have hcomm : ∀ m n, t.shift^[m] (t.exp n) = t.shift^[n] (t.exp m) := fun m n => by
    rw [iterate_exp, iterate_exp, Nat.add_comm]
  rw [mul_eq (t.exp_ne_zero i), hcomm, t.exp_log (t.exp_ne_zero i), iterate_exp, Nat.add_comm]

theorem mul_comm (a b : V) : t.mul a b = t.mul b a := by
  simp only [mul, or_comm, Nat.add_comm]

theorem mul_assoc (a b c : V) : t.mul (t.mul a b) c = t.mul a (t.mul b c) := by
  rcases eq_or_ne a 0 with rfl | ha
  · rw [zero_mul, zero_mul, zero_mul]
  rcases eq_or_ne b 0 with rfl | hb
  · rw [mul_comm a, zero_mul, zero_mul, mul_comm a, zero_mul]
  rcases eq_or_ne c 0 with rfl | hc
  · rw [mul_comm _ 0, zero_mul, mul_comm b, zero_mul, mul_comm a, zero_mul]
  rw [← t.exp_log ha, ← t.exp_log hb, ← t.exp_log hc]
  simp only [exp_mul_exp, Nat.add_assoc]

theorem mul_add (a b c : V) : t.mul a (b + c) = t.mul a b + t.mul a c := by
  rcases eq_or_ne a 0 with rfl | ha
  · simp only [zero_mul, add_zero]
  · rw [mul_eq ha, mul_eq ha, mul_eq ha, iterate_shift_add]

theorem one_mul (b : V) : t.mul t.one b = b := by
  rcases eq_or_ne b 0 with rfl | hb
  · rw [mul_comm, zero_mul]
  · rw [← t.exp_log hb, ← exp_zero, exp_mul_exp, Nat.zero_add]

theorem mul_inv_cancel (ha : a ≠ 0) : t.mul a (t.inv a) = t.one := by
  have hle : t.log a ≤ t.period := Nat.le_of_lt (t.log_lt a ha)
  calc t.mul a (t.inv a)
      = t.mul (t.exp (t.log a)) (t.exp (t.period - t.log a)) := by
        rw [inv, if_neg ha, t.exp_log ha]
    _ = t.exp t.period := by rw [exp_mul_exp, Nat.add_sub_cancel' hle]
    _ = t.one := t.iterate_period

variable (t) in
/-- The group is a field with the products and inverses of the tables. -/
@[reducible] def field : Field V where
  mul := t.mul
  mul_assoc := mul_assoc
  one := t.one
  one_mul := one_mul
  mul_one a := (mul_comm a t.one).trans (one_mul a)
  left_distrib := mul_add
  right_distrib a b c := by
    change t.mul (a + b) c = t.mul a c + t.mul b c
    rw [mul_comm, mul_add, mul_comm c a, mul_comm c b]
  zero_mul := zero_mul
  mul_zero a := (mul_comm a 0).trans (zero_mul a)
  mul_comm := mul_comm
  inv := t.inv
  exists_pair_ne := ⟨t.one, 0, t.one_ne_zero⟩
  mul_inv_cancel _ := mul_inv_cancel
  inv_zero := if_pos rfl
  zsmul := (inferInstance : SubNegMonoid V).zsmul
  zsmul_zero' := (inferInstance : SubNegMonoid V).zsmul_zero'
  zsmul_succ' := (inferInstance : SubNegMonoid V).zsmul_succ'
  zsmul_neg' := (inferInstance : SubNegMonoid V).zsmul_neg'
  sub_eq_add_neg := sub_eq_add_neg
  neg_add_cancel := neg_add_cancel
  nnqsmul := _
  nnqsmul_def := fun _ _ => rfl
  qsmul := _
  qsmul_def := fun _ _ => rfl

end LogTables
