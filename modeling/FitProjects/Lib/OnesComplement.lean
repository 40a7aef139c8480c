import Mathlib.Data.Nat.ModEq
import Mathlib.Tactic.Ring

/-! # Sums with an end-around carry

Words below a base `b` are added, and what the sum has above `b` is added to it again until nothing
is above. The result is the sum modulo `b - 1`, where a sum that is not zero does not become zero.
Words of two halves may be read in either order, as long as all are read in the same. -/

namespace OnesComplement

/-- The carries added until the sum is below `b`. -/
def fold (b sum : Nat) : Nat := if 2 ≤ b ∧ b ≤ sum then fold b (sum % b + sum / b) else sum
termination_by sum
decreasing_by
  have hmod := Nat.mod_add_div sum b
  have hdiv : 0 < sum / b := Nat.div_pos (by omega) (by omega)
  have hmul : 2 * (sum / b) ≤ b * (sum / b) := Nat.mul_le_mul_right _ (by omega)
  omega

variable {b n : Nat}

theorem fold_of_lt (h : n < b) : fold b n = n := by
  rw [fold, if_neg (by omega)]

theorem fold_of_le (hb : 2 ≤ b) (h : b ≤ n) : fold b n = fold b (n % b + n / b) := by
  rw [fold, if_pos ⟨hb, h⟩]

theorem base_modEq (hb : 0 < b) : b ≡ 1 [MOD b - 1] := by
  have h := Nat.ModEq.add_right 1 (Nat.modEq_zero_iff_dvd.mpr (dvd_refl (b - 1)))
  rwa [Nat.sub_add_cancel hb, Nat.zero_add] at h

/-- What a turn keeps. -/
theorem carry_modEq (hb : 2 ≤ b) (n : Nat) : n % b + n / b ≡ n [MOD b - 1] :=
  calc n % b + n / b = n % b + 1 * (n / b) := by rw [Nat.one_mul]
    _ ≡ n % b + b * (n / b) [MOD b - 1] :=
      ((base_modEq (by omega)).symm.mul_right _).add_left _
    _ = n := Nat.mod_add_div n b

theorem fold_spec (hb : 2 ≤ b) (n : Nat) :
    fold b n < b ∧ fold b n ≡ n [MOD b - 1] ∧ (fold b n = 0 → n = 0) := by
  induction n using Nat.strongRecOn with
  | ind n ih =>
    rcases Nat.lt_or_ge n b with hlt | hle
    · rw [fold_of_lt hlt]
      exact ⟨hlt, Nat.ModEq.refl n, id⟩
    · have hmod := Nat.mod_add_div n b
      have hdiv : 0 < n / b := Nat.div_pos hle (by omega)
      have hmul : 2 * (n / b) ≤ b * (n / b) := Nat.mul_le_mul_right _ hb
      obtain ⟨hlt, hmodEq, hzero⟩ := ih (n % b + n / b) (by omega)
      rw [fold_of_le hb hle]
      exact ⟨hlt, hmodEq.trans (carry_modEq hb n), fun h => absurd (hzero h) (by omega)⟩

/-- The sums that become the greatest word. -/
theorem fold_eq_top_iff (hb : 2 ≤ b) : fold b n = b - 1 ↔ 0 < n ∧ b - 1 ∣ n := by
  obtain ⟨hlt, hmod, hzero⟩ := fold_spec hb n
  constructor
  · intro h
    rw [h] at hmod
    refine ⟨Nat.pos_of_ne_zero ?_, (hmod.dvd_iff dvd_rfl).mp dvd_rfl⟩
    rintro rfl
    rw [fold_of_lt (by omega)] at h
    omega
  · rintro ⟨hpos, hdvd⟩
    have hfold : b - 1 ∣ fold b n := (hmod.dvd_iff dvd_rfl).mpr hdvd
    have hne : fold b n ≠ 0 := fun h => by
      have := hzero h
      omega
    have hle := Nat.le_of_dvd (Nat.pos_of_ne_zero hne) hfold
    omega

/-- A sum and the complement of what it becomes. -/
theorem fold_add_complement (hb : 2 ≤ b) (n : Nat) : fold b (n + (b - 1 - fold b n)) = b - 1 := by
  obtain ⟨hlt, hmod, hzero⟩ := fold_spec hb n
  rw [fold_eq_top_iff hb]
  constructor
  · rcases Nat.eq_zero_or_pos n with rfl | hpos
    · rw [fold_of_lt (by omega)]
      omega
    · omega
  · have htop : fold b n + (b - 1 - fold b n) = b - 1 := by omega
    exact ((htop ▸ hmod.add_right (b - 1 - fold b n)).dvd_iff dvd_rfl).mp dvd_rfl

/-! ## Words of two halves -/

/-- The sum of a list's words, where `f` makes a word of two halves. -/
def total (f : α → α → Nat) : List α → Nat
  | x :: y :: l => f x y + total f l
  | _ => 0

theorem total_append {f : α → α → Nat} {l : List α} (h : 2 ∣ l.length) (m : List α) :
    total f (l ++ m) = total f l + total f m := by
  induction l using total.induct with
  | case1 x y l ih =>
    rw [List.length_cons, List.length_cons] at h
    rw [List.cons_append, List.cons_append, total, total, ih (by omega), Nat.add_assoc]
  | case2 l hne =>
    match l with
    | [] => simp [total]
    | [x] => simp at h
    | x :: y :: l => exact absurd rfl (hne x y l)

section
variable {r : Nat} {f g : α → α → Nat} {v : α → Nat}

/-- Two readings that order the halves differently agree up to a factor. -/
theorem total_swap (hr : 0 < r) (hf : ∀ x y, f x y = v x + r * v y)
    (hg : ∀ x y, g x y = r * v x + v y) (l : List α) :
    r * total f l ≡ total g l [MOD r * r - 1] := by
  have hsquare : r * r ≡ 1 [MOD r * r - 1] := base_modEq (Nat.mul_pos hr hr)
  induction l using total.induct with
  | case1 x y l ih =>
    rw [total, total, Nat.mul_add, hf, hg]
    refine Nat.ModEq.add ?_ ih
    calc r * (v x + r * v y) = r * v x + r * r * v y := by ring
      _ ≡ r * v x + 1 * v y [MOD r * r - 1] := (hsquare.mul_right _).add_left _
      _ = r * v x + v y := by rw [Nat.one_mul]
  | case2 l hne =>
    rw [total.eq_2 f l hne, total.eq_2 g l hne, Nat.mul_zero]

theorem total_pos (hr : 0 < r) (hf : ∀ x y, f x y = v x + r * v y)
    (hg : ∀ x y, g x y = r * v x + v y) {l : List α} (h : 0 < total f l) : 0 < total g l := by
  induction l using total.induct with
  | case1 x y l ih =>
    rw [total, hf] at h
    rw [total, hg]
    rcases Nat.eq_zero_or_pos (total f l) with hzero | hpos
    · have hx : v x ≤ r * v x := Nat.le_mul_of_pos_left _ hr
      have hy : v y = 0 → r * v y = 0 := fun h => by rw [h, Nat.mul_zero]
      omega
    · exact Nat.add_pos_right _ (ih hpos)
  | case2 l hne =>
    rw [total.eq_2 f l hne] at h
    cases h

/-- The test for the greatest word does not depend on the order of the halves. -/
theorem fold_total_swap (hr : 2 ≤ r) (hf : ∀ x y, f x y = v x + r * v y)
    (hg : ∀ x y, g x y = r * v x + v y) {l : List α} (h : fold (r * r) (total f l) = r * r - 1) :
    fold (r * r) (total g l) = r * r - 1 := by
  have hb : 2 ≤ r * r := Nat.le_trans hr (Nat.le_mul_of_pos_left _ (by omega))
  rw [fold_eq_top_iff hb] at h ⊢
  exact ⟨total_pos (by omega) hf hg h.1,
    ((total_swap (by omega) hf hg l).dvd_iff dvd_rfl).mp (dvd_mul_of_dvd_right h.2 r)⟩

end

end OnesComplement
