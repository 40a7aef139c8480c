import Mathlib.Algebra.BigOperators.Group.Finset.Basic
import Mathlib.Algebra.Order.BigOperators.Group.Finset
import Mathlib.Data.Fintype.Basic

/-! # Counting over the members of a finite family

`census w f` adds up the weights `w i (f i)` of a finite family `f` of local states. A weight with
values `0` and `1` counts the members in a class of local states. One step of one member changes a
census by the difference of two weights (`census_update`), so that invariants made of censuses are
checked by linear arithmetic. -/

open Finset

/-- The total weight of the local states of a finite family. -/
def census [Fintype ι] (w : ι → ℓ → ℕ) (f : ι → ℓ) : ℕ := ∑ i, w i (f i)

section
variable {ι : Type u} {ℓ : Type v} [Fintype ι] {w v : ι → ℓ → ℕ} {f g : ι → ℓ}

/-- One member moves from `f i` to `x`. -/
theorem census_update [DecidableEq ι] (w : ι → ℓ → ℕ) (f : ι → ℓ) (i : ι) (x : ℓ) :
    census w (Function.update f i x) + w i (f i) = census w f + w i x := by
  have hrest : ∑ j ∈ univ.erase i, w j (Function.update f i x j) =
      ∑ j ∈ univ.erase i, w j (f j) :=
    sum_congr rfl fun j hj => by rw [Function.update_of_ne (ne_of_mem_erase hj)]
  have hnew := add_sum_erase univ (fun j => w j (Function.update f i x j)) (mem_univ i)
  have hold := add_sum_erase univ (fun j => w j (f j)) (mem_univ i)
  simp only [Function.update_self, hrest] at hnew
  simp only [census, ← hnew, ← hold]
  omega

theorem le_census (w : ι → ℓ → ℕ) (f : ι → ℓ) (i : ι) : w i (f i) ≤ census w f :=
  single_le_sum (f := fun i => w i (f i)) (fun _ _ => Nat.zero_le _) (mem_univ i)

/-- Two members together weigh no more than all of them. -/
theorem add_le_census (w : ι → ℓ → ℕ) (f : ι → ℓ) (hij : i ≠ j) :
    w i (f i) + w j (f j) ≤ census w f := by
  classical
  have h := sum_le_sum_of_subset (f := fun i => w i (f i)) (subset_univ {i, j})
  rwa [sum_pair hij] at h

theorem census_mono (h : ∀ i, w i (f i) ≤ v i (g i)) : census w f ≤ census v g :=
  sum_le_sum fun i _ => h i

theorem census_add (w v : ι → ℓ → ℕ) (f : ι → ℓ) :
    census (fun i x => w i x + v i x) f = census w f + census v f :=
  sum_add_distrib

theorem census_zero (h : ∀ i, w i (f i) = 0) : census w f = 0 :=
  sum_eq_zero fun i _ => h i

/-- A member outside the class makes the class smaller than the family. -/
theorem census_lt_card (h1 : ∀ i, w i (f i) ≤ 1) (h0 : w i (f i) = 0) :
    census w f < Fintype.card ι := by
  have hlt : ∑ j, w j (f j) < ∑ _j : ι, 1 :=
    sum_lt_sum (fun j _ => h1 j) ⟨i, mem_univ i, by omega⟩
  simpa [census] using hlt

end
