import FitProjects.Lib.KeyEquation

/-! # The synthesis of a locator

The algorithm of Berlekamp and Massey, with erasures. The first `ρ` coefficients of a sequence say
nothing about the errors; from then on the polynomial `psi` annihilates what is known of the
sequence, and `D` is the polynomial that repairs it when the next coefficient does not fit. -/

namespace BerlekampMassey

open Polynomial

variable {F : Type u} [Field F]

/-- A product at a place where only the lowest coefficient of the first factor meets the second. -/
theorem coeff_mul_eq {p q : F[X]} {a n : Nat} (hp : p.natDegree ≤ a)
    (hq : ∀ j, n ≤ j + a → j < n → q.coeff j = 0) :
    (p * q).coeff n = p.coeff 0 * q.coeff n := by
  rw [coeff_mul]
  have hmem : ((0 : Nat), n) ∈ Finset.HasAntidiagonal.antidiagonal n :=
    Finset.HasAntidiagonal.mem_antidiagonal.mpr (Nat.zero_add n)
  apply Finset.sum_eq_single_of_mem (0, n) hmem
  rintro ⟨i, j⟩ hij hne
  have hsum : i + j = n := Finset.HasAntidiagonal.mem_antidiagonal.mp hij
  have hi : i ≠ 0 := by
    rintro rfl
    exact hne (Prod.ext rfl ((Nat.zero_add j).symm.trans hsum))
  rcases Nat.lt_or_ge a i with hlt | hle
  · rw [coeff_eq_zero_of_natDegree_lt (Nat.lt_of_le_of_lt hp hlt), zero_mul]
  · rw [hq j (by omega) (by omega), mul_zero]

/-! ## The algorithm -/

/-- The variables of the loop. -/
structure State (F : Type u) [Field F] where
  psi : F[X]
  D : F[X]
  L : Nat
  k : Int

open Classical in
/-- The turn of the loop that looks at coefficient `n`. -/
noncomputable def step (S : F[X]) (n : Nat) (st : State F) : State F :=
  let d := (st.psi * S).coeff n
  if d = 0 then { st with D := X * st.D }
  else
    let psi2 := st.psi - C d * st.D
    if (st.L : Int) < n - st.k then ⟨psi2, X * (C d⁻¹ * st.psi), (n - st.k).toNat, n - st.L⟩
    else { st with psi := psi2, D := X * st.D }

/-- The state before the first turn; `gamma` locates the erasures. -/
noncomputable def start (gamma : F[X]) (ρ : Nat) : State F := ⟨gamma, X * gamma, ρ, -1⟩

/-- The state before coefficient `ρ + m`. -/
noncomputable def run (S gamma : F[X]) (ρ : Nat) : Nat → State F
  | 0 => start gamma ρ
  | m + 1 => step S (ρ + m) (run S gamma ρ m)

section
variable {S : F[X]} {n : Nat} {st : State F}

theorem step_eq_of_fits (hd : (st.psi * S).coeff n = 0) :
    step S n st = { st with D := X * st.D } := if_pos hd

theorem step_eq_of_grow (hd : (st.psi * S).coeff n ≠ 0) (hL : (st.L : Int) < n - st.k) :
    step S n st = ⟨st.psi - C ((st.psi * S).coeff n) * st.D,
      X * (C ((st.psi * S).coeff n)⁻¹ * st.psi), (n - st.k).toNat, n - st.L⟩ :=
  (if_neg hd).trans (if_pos hL)

theorem step_eq_of_repair (hd : (st.psi * S).coeff n ≠ 0) (hL : ¬ (st.L : Int) < n - st.k) :
    step S n st =
      { st with psi := st.psi - C ((st.psi * S).coeff n) * st.D, D := X * st.D } :=
  (if_neg hd).trans (if_neg hL)

end

/-! ## The invariant -/

/-- Before coefficient `n`: what `psi` and `D` are besides the erasure locator, and how they act on
the sequence `gamma * S`. -/
structure Invariant (S gamma : F[X]) (ρ n : Nat) (st : State F) (σ δ : F[X]) : Prop where
  psi : st.psi = gamma * σ
  D : st.D = gamma * δ
  k : st.k = st.L - ρ - 1
  ρ_le : ρ ≤ st.L
  L_le : st.L ≤ n
  coeff_zero : σ.coeff 0 = 1
  degree_σ : σ.natDegree ≤ st.L - ρ
  degree_δ : δ.natDegree ≤ n - st.L + 1
  δ_zero : δ.coeff 0 = 0
  annihilates : ∀ j, st.L ≤ j → j < n → (σ * (gamma * S)).coeff j = 0
  repairs : ∀ j, n + ρ + 1 ≤ j + st.L → j ≤ n →
    (δ * (gamma * S)).coeff j = if j = n then 1 else 0

variable {S gamma σ δ : F[X]} {ρ n : Nat} {st : State F}

theorem Invariant.start (S gamma : F[X]) (ρ : Nat) :
    Invariant S gamma ρ ρ (start gamma ρ) 1 X where
  psi := (mul_one _).symm
  D := mul_comm ..
  k := by simp [BerlekampMassey.start]
  ρ_le := Nat.le_refl ρ
  L_le := Nat.le_refl ρ
  coeff_zero := coeff_one_zero
  degree_σ := by rw [natDegree_one]; exact Nat.zero_le _
  degree_δ := natDegree_X_le.trans (Nat.le_add_left ..)
  δ_zero := coeff_X_zero
  annihilates j hj hlt := absurd hj (Nat.not_le_of_lt hlt)
  repairs j hj hle := by
    change ρ + ρ + 1 ≤ j + ρ at hj
    omega

namespace Invariant

variable (h : Invariant S gamma ρ n st σ δ)
include h

theorem discrepancy_eq : (st.psi * S).coeff n = (σ * (gamma * S)).coeff n := by
  rw [h.psi, mul_comm gamma, mul_assoc]

theorem L_lt_iff : (st.L : Int) < n - st.k ↔ 2 * st.L ≤ n + ρ := by
  rw [h.k]
  omega

theorem toNat_eq : ((n : Int) - st.k).toNat = n + ρ + 1 - st.L := by
  have hle := h.L_le
  rw [h.k]
  omega

/-- A coefficient of the shifted repair polynomial. -/
theorem repairs_X (j : Nat) (hj : n + 1 + ρ + 1 ≤ j + st.L) (hle : j ≤ n + 1) :
    (X * δ * (gamma * S)).coeff j = if j = n + 1 then 1 else 0 := by
  have hL := h.L_le
  obtain ⟨j, rfl⟩ : ∃ i, j = i + 1 := ⟨j - 1, by omega⟩
  rw [mul_assoc, coeff_X_mul, h.repairs j (by omega) (by omega)]
  simp only [Nat.add_right_cancel_iff]

theorem degree_X : (X * δ).natDegree ≤ n + 1 - st.L + 1 := by
  have hL := h.L_le
  have hδ := h.degree_δ
  refine (natDegree_mul_le ..).trans ?_
  rw [natDegree_X]
  omega

/-- A coefficient that fits. -/
theorem step_of_fits (hd : (st.psi * S).coeff n = 0) :
    Invariant S gamma ρ (n + 1) { st with D := X * st.D } σ (X * δ) where
  psi := h.psi
  D := by
    change X * st.D = _
    rw [h.D, mul_left_comm]
  k := h.k
  ρ_le := h.ρ_le
  L_le := Nat.le_succ_of_le h.L_le
  coeff_zero := h.coeff_zero
  degree_σ := h.degree_σ
  degree_δ := h.degree_X
  δ_zero := coeff_X_mul_zero δ
  annihilates j hj hlt := by
    rcases Nat.lt_succ_iff_lt_or_eq.mp hlt with hlt | rfl
    · exact h.annihilates j hj hlt
    · rw [← h.discrepancy_eq, hd]
  repairs := h.repairs_X

/-- What the repaired polynomial does to the sequence. -/
theorem coeff_repaired (j : Nat) (hj : st.L ≤ j) (hj' : n + ρ + 1 ≤ j + st.L) (hle : j ≤ n) :
    ((σ - C ((st.psi * S).coeff n) * δ) * (gamma * S)).coeff j = 0 := by
  rw [sub_mul, mul_assoc, coeff_sub, coeff_C_mul, h.repairs j hj' hle]
  rcases Nat.lt_or_eq_of_le hle with hlt | rfl
  · rw [if_neg (Nat.ne_of_lt hlt), mul_zero, sub_zero, h.annihilates j hj hlt]
  · rw [if_pos rfl, mul_one, h.discrepancy_eq, sub_self]

theorem coeff_zero_repaired (d : F) : (σ - C d * δ).coeff 0 = 1 := by
  rw [coeff_sub, coeff_C_mul, h.δ_zero, mul_zero, sub_zero, h.coeff_zero]

theorem psi_repaired (d : F) : st.psi - C d * st.D = gamma * (σ - C d * δ) := by
  rw [h.psi, h.D, mul_sub, mul_left_comm]

theorem degree_repaired (d : F) (hL : n - st.L + 1 ≤ m) (hσ : st.L - ρ ≤ m) :
    (σ - C d * δ).natDegree ≤ m := by
  apply (natDegree_sub_le ..).trans
  apply max_le (h.degree_σ.trans hσ)
  exact (natDegree_C_mul_le ..).trans (h.degree_δ.trans hL)

/-- A coefficient that does not fit, and a register that is long enough. -/
theorem step_of_repair (hL : ¬ 2 * st.L ≤ n + ρ) :
    Invariant S gamma ρ (n + 1)
      { st with psi := st.psi - C ((st.psi * S).coeff n) * st.D, D := X * st.D }
      (σ - C ((st.psi * S).coeff n) * δ) (X * δ) where
  psi := h.psi_repaired _
  D := by
    change X * st.D = _
    rw [h.D, mul_left_comm]
  k := h.k
  ρ_le := h.ρ_le
  L_le := Nat.le_succ_of_le h.L_le
  coeff_zero := h.coeff_zero_repaired _
  degree_σ := by
    have hle := h.L_le
    have hρ := h.ρ_le
    exact h.degree_repaired _ (m := st.L - ρ) (by omega) (Nat.le_refl _)
  degree_δ := h.degree_X
  δ_zero := coeff_X_mul_zero δ
  annihilates j hj hlt := by
    have hj' : st.L ≤ j := hj
    exact h.coeff_repaired j hj (by omega) (Nat.le_of_lt_succ hlt)
  repairs := h.repairs_X

/-- A coefficient that does not fit, and a register that becomes longer. -/
theorem step_of_grow (hd : (st.psi * S).coeff n ≠ 0) (hL : 2 * st.L ≤ n + ρ) :
    Invariant S gamma ρ (n + 1)
      ⟨st.psi - C ((st.psi * S).coeff n) * st.D, X * (C ((st.psi * S).coeff n)⁻¹ * st.psi),
        n + ρ + 1 - st.L, n - st.L⟩
      (σ - C ((st.psi * S).coeff n) * δ) (X * (C ((st.psi * S).coeff n)⁻¹ * σ)) where
  psi := h.psi_repaired _
  D := by
    change X * (C ((st.psi * S).coeff n)⁻¹ * st.psi) = _
    rw [h.psi]
    ring
  k := by
    have hle := h.L_le
    change (n : Int) - st.L = ((n + ρ + 1 - st.L : Nat) : Int) - ρ - 1
    omega
  ρ_le := by
    have hle := h.L_le
    change ρ ≤ n + ρ + 1 - st.L
    omega
  L_le := by
    have hle := h.ρ_le
    change n + ρ + 1 - st.L ≤ n + 1
    omega
  coeff_zero := h.coeff_zero_repaired _
  degree_σ := by
    have hle := h.L_le
    have hρ := h.ρ_le
    change _ ≤ n + ρ + 1 - st.L - ρ
    exact h.degree_repaired _ (by omega) (by omega)
  degree_δ := by
    have hle := h.L_le
    have hρ := h.ρ_le
    have hσ := h.degree_σ
    change _ ≤ n + 1 - (n + ρ + 1 - st.L) + 1
    refine (natDegree_mul_le ..).trans ?_
    have hscale := natDegree_C_mul_le ((st.psi * S).coeff n)⁻¹ σ
    rw [natDegree_X]
    omega
  δ_zero := coeff_X_mul_zero _
  annihilates j hj hlt := by
    have hj' : n + ρ + 1 - st.L ≤ j := hj
    exact h.coeff_repaired j (by omega) (by omega) (Nat.le_of_lt_succ hlt)
  repairs j hj hle := by
    have hj' : n + 1 + ρ + 1 ≤ j + (n + ρ + 1 - st.L) := hj
    have hLn := h.L_le
    obtain ⟨j, rfl⟩ : ∃ i, j = i + 1 := ⟨j - 1, by omega⟩
    rw [mul_assoc, coeff_X_mul, mul_assoc, coeff_C_mul]
    simp only [Nat.add_right_cancel_iff]
    rcases Nat.lt_or_eq_of_le (Nat.le_of_succ_le_succ hle) with hlt | rfl
    · rw [if_neg (Nat.ne_of_lt hlt), h.annihilates j (by omega) hlt, mul_zero]
    · rw [if_pos rfl, h.discrepancy_eq] at *
      exact inv_mul_cancel₀ hd

/-- A turn keeps the invariant. -/
theorem step : ∃ σ' δ', Invariant S gamma ρ (n + 1) (step S n st) σ' δ' := by
  by_cases hd : (st.psi * S).coeff n = 0
  · rw [step_eq_of_fits hd]
    exact ⟨_, _, h.step_of_fits hd⟩
  by_cases hL : (st.L : Int) < n - st.k
  · rw [step_eq_of_grow hd hL, h.toNat_eq]
    exact ⟨_, _, h.step_of_grow hd (h.L_lt_iff.mp hL)⟩
  · rw [step_eq_of_repair hd hL]
    exact ⟨_, _, h.step_of_repair (mt h.L_lt_iff.mpr hL)⟩

end Invariant

theorem exists_invariant (S gamma : F[X]) (ρ m : Nat) :
    ∃ σ δ, Invariant S gamma ρ (ρ + m) (run S gamma ρ m) σ δ := by
  induction m with
  | zero => exact ⟨1, X, Invariant.start S gamma ρ⟩
  | succ m ih =>
    obtain ⟨σ, δ, h⟩ := ih
    exact h.step

/-! ## The shortest register -/

/-- A polynomial that annihilates the sequence is not shorter than the register. -/
theorem Invariant.L_step_le (h : Invariant S gamma ρ n st σ δ) {lam : F[X]}
    (hdeg : lam.natDegree ≤ e) (hzero : lam.coeff 0 = 1) (hn : n < N)
    (hann : ∀ j, e + ρ ≤ j → j < N → (lam * (gamma * S)).coeff j = 0) (hL : st.L ≤ e + ρ) :
    (BerlekampMassey.step S n st).L ≤ e + ρ := by
  have hρ := h.ρ_le
  have hLn := h.L_le
  by_cases hd : (st.psi * S).coeff n = 0
  · rw [step_eq_of_fits hd]
    exact hL
  by_cases hlt : (st.L : Int) < n - st.k
  · rw [step_eq_of_grow hd hlt, h.toNat_eq]
    change n + ρ + 1 - st.L ≤ e + ρ
    by_contra hlong
    apply hd
    -- the product of the three, with either polynomial first
    have hσ : (σ * (lam * (gamma * S))).coeff n = σ.coeff 0 * (lam * (gamma * S)).coeff n :=
      coeff_mul_eq h.degree_σ fun j hj hlt => hann j (by omega) (by omega)
    have hlam : (lam * (σ * (gamma * S))).coeff n = lam.coeff 0 * (σ * (gamma * S)).coeff n :=
      coeff_mul_eq hdeg fun j hj hlt => h.annihilates j (by omega) hlt
    rw [hann n (by omega) hn, mul_zero, mul_left_comm] at hσ
    rw [h.discrepancy_eq, ← one_mul ((σ * _).coeff n), ← hzero, ← hlam, hσ]
  · rw [step_eq_of_repair hd hlt]
    exact hL

theorem L_run_le {lam : F[X]} (hdeg : lam.natDegree ≤ e) (hzero : lam.coeff 0 = 1)
    (hann : ∀ j, e + ρ ≤ j → j < N → (lam * (gamma * S)).coeff j = 0) (hm : ρ + m ≤ N) :
    (run S gamma ρ m).L ≤ e + ρ := by
  induction m with
  | zero => exact Nat.le_add_left ρ e
  | succ m ih =>
    obtain ⟨σ, δ, h⟩ := exists_invariant S gamma ρ m
    exact h.L_step_le hdeg hzero hm hann (ih (Nat.le_of_succ_le hm))

/-! ## The locator of the errors -/

/-- The coefficients below `n`. -/
noncomputable def low (p : F[X]) (n : Nat) : F[X] :=
  ∑ j ∈ Finset.range n, C (p.coeff j) * X ^ j

theorem coeff_low (p : F[X]) (n j : Nat) : (low p n).coeff j = if j < n then p.coeff j else 0 := by
  rw [low, finsetSum_coeff]
  simp only [coeff_C_mul_X_pow, Finset.sum_ite_eq, Finset.mem_range]

theorem coeff_mul_congr {p q q' : F[X]} (h : ∀ i ≤ j, q.coeff i = q'.coeff i) :
    (p * q).coeff j = (p * q').coeff j := by
  rw [coeff_mul, coeff_mul]
  refine Finset.sum_congr rfl fun ij hij => ?_
  have hsum := Finset.HasAntidiagonal.mem_antidiagonal.mp hij
  rw [h ij.2 (hsum ▸ Nat.le_add_left ..)]

theorem coeff_mul_eq_zero {p q : F[X]} (hp : p.natDegree ≤ a) (hq : ∀ i, b ≤ i → q.coeff i = 0)
    (hj : a + b ≤ j) : (p * q).coeff j = 0 := by
  rw [coeff_mul_eq hp fun i hi _ => hq i (by omega), hq j (by omega), mul_zero]

open KeyEquation

/-- With at most as many errors as the coefficients can tell, the algorithm finds the locator of all
errors. -/
theorem psi_run_eq {ι : Type v} {x : ι → F} {s : Finset ι} (hx : ∀ i ∈ s, x i ≠ 0)
    (hinj : Set.InjOn x s) {omega : F[X]}
    (hkey : ∀ j < N, (locator x s * (gamma * S)).coeff j = omega.coeff j)
    (hdeg : ∀ j, s.card + ρ ≤ j → omega.coeff j = 0)
    (hne : ∀ i ∈ s, omega.eval (x i)⁻¹ ≠ 0) (hN : 2 * s.card + ρ ≤ N) :
    (run S gamma ρ (N - ρ)).psi = gamma * locator x s := by
  obtain ⟨σ, δ, h⟩ := exists_invariant S gamma ρ (N - ρ)
  rw [Nat.add_sub_cancel' (by omega)] at h
  have hL : (run S gamma ρ (N - ρ)).L ≤ s.card + ρ :=
    L_run_le (natDegree_locator_le x s) (coeff_zero_locator x s)
      (fun j hj hlt => (hkey j hlt).trans (hdeg j hj)) (by omega)
  have hρ := h.ρ_le
  -- both products are known below `N`, and have no coefficients from there on
  have heq : locator x s * low (σ * (gamma * S)) (run S gamma ρ (N - ρ)).L = σ * omega := by
    ext j
    rcases Nat.lt_or_ge j N with hj | hj
    · have hlow : ∀ i ≤ j, (low (σ * (gamma * S)) (run S gamma ρ (N - ρ)).L).coeff i =
          (σ * (gamma * S)).coeff i := by
        intro i hi
        rw [coeff_low]
        split
        next => rfl
        next hge => exact (h.annihilates i (Nat.le_of_not_lt hge) (by omega)).symm
      have homega : ∀ i ≤ j, omega.coeff i = (locator x s * (gamma * S)).coeff i :=
        fun i hi => (hkey i (by omega)).symm
      rw [coeff_mul_congr hlow, coeff_mul_congr homega, mul_left_comm]
    · rw [coeff_mul_eq_zero (natDegree_locator_le x s)
          (fun i hi => (coeff_low ..).trans (if_neg (Nat.not_lt_of_le hi))) (by omega),
        coeff_mul_eq_zero h.degree_σ hdeg (by omega)]
  have hσ : σ = locator x s := by
    apply eq_locator hx hinj (h.degree_σ.trans (by omega)) h.coeff_zero
    intro i hi
    have heval := congrArg (eval (x i)⁻¹) heq
    rw [eval_mul, eval_mul, (eval_locator_eq_zero_iff hx).mpr ⟨i, hi, rfl⟩, zero_mul] at heval
    exact (mul_eq_zero.mp heval.symm).resolve_right (hne i hi)
  rw [h.psi, hσ]

end BerlekampMassey
