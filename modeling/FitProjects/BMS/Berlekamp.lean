import FitProjects.BMS.ReedSolomon
import FitProjects.Lib.BerlekampMassey

/-! # Correction of errors and erasures

`lib/berlekamp.c` of `BMS/proj1`: the locator of errors and erasures, its roots, and the correction
of a codeword in place. A location counts the bytes from the end of the codeword. -/

namespace Rscode

/-! ## The locator -/

/-- `init_gamma`: the locator of the erasures. -/
def initGamma (erasureLocs : List Nat) : Poly :=
  erasureLocs.foldl
    (fun gamma e => addPolys gamma (mulZPoly (scalePoly (gexp e) gamma))) onePoly

/-- `compute_discrepancy`. The index `n - i` does not wrap, since the register is never longer than
the number of the turn. -/
def computeDiscrepancy (lambda S : Poly) (L n : Nat) : GF256 :=
  (List.range (L + 1)).foldl (fun sum i => sum ^^^ gmult (entry lambda i) (entry S (n - i))) 0

/-- The variables of the loop of `Modified_Berlekamp_Massey`. -/
structure Synthesis where
  psi : Poly
  D : Poly
  L : Nat
  k : Int

/-- A turn of the loop. -/
def Synthesis.turn (S : Poly) (st : Synthesis) (n : Nat) : Synthesis :=
  let d := computeDiscrepancy st.psi S st.L n
  if d ≠ 0 then
    let psi2 := tabulate maxdeg fun i => entry st.psi i ^^^ gmult d (entry st.D i)
    if (st.L : Int) < n - st.k then
      let D := tabulate maxdeg fun i => gmult (entry st.psi i) (ginv d)
      ⟨psi2, mulZPoly D, (n - st.k).toNat, n - st.L⟩
    else { st with psi := psi2, D := mulZPoly st.D }
  else { st with D := mulZPoly st.D }

def Synthesis.init (erasureLocs : List Nat) : Synthesis :=
  let gamma := initGamma erasureLocs
  ⟨gamma, mulZPoly gamma, erasureLocs.length, -1⟩

/-- `Modified_Berlekamp_Massey` up to `Lambda`. -/
def modifiedBerlekampMassey (synBytes : Poly) (erasureLocs : List Nat) : Poly :=
  ((List.range' erasureLocs.length (npar - erasureLocs.length)).foldl (Synthesis.turn synBytes)
    (.init erasureLocs)).psi

/-- `compute_modified_omega` -/
def computeModifiedOmega (lambda synBytes : Poly) : Poly :=
  let product := multPolys lambda synBytes
  tabulate maxdeg fun i => if i < npar then entry product i else 0

/-! ## The roots -/

/-- The sum that `Find_Roots` computes for `r`. -/
def rootSum (lambda : Poly) (r : Nat) : GF256 :=
  (List.range (npar + 1)).foldl
    (fun sum k => sum ^^^ gmult (gexp (k * r % 255)) (entry lambda k)) 0

/-- `ErrorLocs`; its length is `NErrors`. -/
def findRoots (lambda : Poly) : List Nat :=
  ((List.range' 1 255).filter fun r => rootSum lambda r = 0).map fun r => 255 - r

/-! ## The correction -/

/-- The evaluator at the root of location `i`. -/
def errorNum (omega : Poly) (i : Nat) : GF256 :=
  (List.range maxdeg).foldl
    (fun num j => num ^^^ gmult (entry omega j) (gexp ((255 - i) * j % 255))) 0

/-- The derivative of the locator at the root of location `i`: the turns with `j = 2 * m + 1`. -/
def errorDenom (lambda : Poly) (i : Nat) : GF256 :=
  (List.range npar).foldl
    (fun denom m => denom ^^^
      gmult (entry lambda (2 * m + 1)) (gexp ((255 - i) * (2 * m + 1 - 1) % 255))) 0

def errorMagnitude (lambda omega : Poly) (i : Nat) : GF256 :=
  gmult (errorNum omega i) (ginv (errorDenom lambda i))

/-- The codeword, and 1 if it was changed. -/
def correctErrorsErasures (synBytes : Poly) (codeword : List UInt8) (erasures : List Nat) :
    List UInt8 × Nat :=
  let lambda := modifiedBerlekampMassey synBytes erasures
  let omega := computeModifiedOmega lambda synBytes
  let errorLocs := findRoots lambda
  if errorLocs.length ≤ npar ∧ 0 < errorLocs.length then
    if errorLocs.any fun i => codeword.length ≤ i then (codeword, 0)
    else
      (errorLocs.foldl (fun codeword' i => codeword'.modify (codeword.length - i - 1)
        fun b => b ^^^ (errorMagnitude lambda omega i).byte) codeword, 1)
  else (codeword, 0)

/-! ## The arrays as polynomials -/

open Polynomial KeyEquation

/-- The place in the field of a location. -/
def location (i : Nat) : GF256 := alpha ^ i

theorem location_ne_zero (i : Nat) : location i ≠ 0 := pow_ne_zero i alpha_ne_zero

theorem injOn_location {s : Finset Nat} (hs : ∀ i ∈ s, i < 255) : Set.InjOn location s :=
  fun i hi j hj heq => alpha_pow_inj (hs i hi) (hs j hj) heq

section
variable {erasureLocs : List Nat}

theorem toPoly_initGamma (hnodup : erasureLocs.Nodup) (hlt : ∀ e ∈ erasureLocs, e < 255)
    (hlen : erasureLocs.length + 1 < maxdeg) :
    toPoly (initGamma erasureLocs) = locator location erasureLocs.toFinset := by
  induction erasureLocs using List.reverseRecOn with
  | nil => exact toPoly_onePoly
  | append_singleton locs e ih =>
    rw [List.length_append, List.length_singleton] at hlen
    obtain ⟨hlocs, -, hdisj⟩ := List.nodup_append.mp hnodup
    have hmem : e ∉ locs.toFinset := by
      intro he
      exact hdisj e (List.mem_toFinset.mp he) e (List.mem_singleton_self e) rfl
    have hprev := ih hlocs (fun i hi => hlt i (List.mem_append_left _ hi)) (by omega)
    have he : e ≤ 510 := by
      have := hlt e (List.mem_append_right _ (List.mem_singleton_self e))
      omega
    have hdeg : (toPoly (scalePoly (gexp e) (initGamma locs))).natDegree + 1 < maxdeg := by
      have hle := natDegree_locator_le location locs.toFinset
      have hcard := locs.toFinset_card_le
      have hscale := natDegree_C_mul_le (gexp e) (toPoly (initGamma locs))
      rw [toPoly_scalePoly]
      rw [hprev] at hscale ⊢
      omega
    have hfold : initGamma (locs ++ [e]) =
        addPolys (initGamma locs) (mulZPoly (scalePoly (gexp e) (initGamma locs))) := by
      rw [initGamma, List.foldl_append]
      rfl
    rw [hfold, toPoly_addPolys, toPoly_mulZPoly hdeg, toPoly_scalePoly, hprev, gexp_eq_pow he,
      List.toFinset_append, Finset.union_comm, locator_union]
    · have hsingle : locator location [e].toFinset = 1 + C (alpha ^ e) * X := by
        rw [locator, List.toFinset_cons, List.toFinset_nil, insert_empty_eq, Finset.prod_singleton,
          location, CharTwo.sub_eq_add]
      rw [hsingle]
      ring
    · simpa using hmem

end

/-- The discrepancy is a coefficient of the product. -/
theorem computeDiscrepancy_eq (lambda S : Poly) (hdeg : (toPoly lambda).natDegree ≤ L)
    (hL : L ≤ n) : computeDiscrepancy lambda S L n = (toPoly lambda * toPoly S).coeff n := by
  rw [computeDiscrepancy, foldl_xor_eq_sum, coeff_mul,
    Finset.Nat.sum_antidiagonal_eq_sum_range_succ_mk]
  simp only [gmult_eq_mul, coeff_toPoly]
  apply Finset.sum_subset (Finset.range_mono (Nat.succ_le_succ hL))
  intro i _ hi
  rw [← coeff_toPoly lambda, coeff_eq_zero_of_natDegree_lt, zero_mul]
  rw [Finset.mem_range] at hi
  omega

/-- The variables, with the arrays as polynomials. -/
noncomputable def Synthesis.toState (st : Synthesis) : BerlekampMassey.State GF256 :=
  ⟨toPoly st.psi, toPoly st.D, st.L, st.k⟩

namespace Synthesis

variable {S : Poly} {st : Synthesis}

@[simp] theorem toState_psi (st : Synthesis) : st.toState.psi = toPoly st.psi := rfl

@[simp] theorem toState_D (st : Synthesis) : st.toState.D = toPoly st.D := rfl

/-- The repaired polynomial. -/
theorem toPoly_psi2 (psi D : Poly) (d : GF256) :
    toPoly (tabulate maxdeg fun i => entry psi i ^^^ gmult d (entry D i)) =
      toPoly psi - C d * toPoly D := by
  rw [CharTwo.sub_eq_add, ← toPoly_scalePoly, ← toPoly_addPolys, toPoly_eq_iff]
  intro j
  rw [coeff_toPoly, addPolys, entry_tabulate, entry_tabulate, scalePoly, entry_tabulate]
  split <;> rfl

theorem toPoly_scaled (psi : Poly) (hd : d ≠ 0) :
    toPoly (tabulate maxdeg fun i => gmult (entry psi i) (ginv d)) = C d⁻¹ * toPoly psi := by
  rw [← toPoly_scalePoly, toPoly_eq_iff]
  intro j
  rw [coeff_toPoly, scalePoly, entry_tabulate, entry_tabulate, gmult_eq_mul, gmult_eq_mul,
    ginv_eq_inv hd, mul_comm]

section
variable {gamma σ δ : GF256[X]}
  (h : BerlekampMassey.Invariant (toPoly S) gamma ρ n st.toState σ δ) (hgamma : gamma.natDegree ≤ ρ)
include h hgamma

theorem natDegree_psi_le : (toPoly st.psi).natDegree ≤ st.L := by
  have hσ : σ.natDegree ≤ st.L - ρ := h.degree_σ
  have hρ : ρ ≤ st.L := h.ρ_le
  rw [← toState_psi, h.psi]
  have hmul := natDegree_mul_le (p := gamma) (q := σ)
  omega

theorem natDegree_D_le : (toPoly st.D).natDegree ≤ n + 1 := by
  have hδ : δ.natDegree ≤ n - st.L + 1 := h.degree_δ
  have hρ : ρ ≤ st.L := h.ρ_le
  have hL : st.L ≤ n := h.L_le
  rw [← toState_D, h.D]
  have hmul := natDegree_mul_le (p := gamma) (q := δ)
  omega

/-- A turn of the code is a step of the algorithm on polynomials. -/
theorem toState_turn (hn : n + 2 < maxdeg) :
    (st.turn S n).toState = BerlekampMassey.step (toPoly S) n st.toState := by
  have hpsi := natDegree_psi_le h hgamma
  have hD := natDegree_D_le h hgamma
  have hL : st.L ≤ n := h.L_le
  have hd : computeDiscrepancy st.psi S st.L n = (st.toState.psi * toPoly S).coeff n :=
    computeDiscrepancy_eq st.psi S hpsi hL
  have hshift : toPoly (mulZPoly st.D) = X * toPoly st.D := toPoly_mulZPoly (by omega)
  by_cases hzero : (st.toState.psi * toPoly S).coeff n = 0
  · have hturn : st.turn S n = { st with D := mulZPoly st.D } :=
      if_neg (not_not.mpr (hd.trans hzero))
    rw [hturn, BerlekampMassey.step_eq_of_fits hzero, toState, hshift]
    rfl
  have hdne := hd.trans_ne hzero
  by_cases hlt : (st.L : Int) < n - st.k
  · have hturn := (if_pos hdne).trans (if_pos hlt) (a := st.turn S n)
    have hscale := toPoly_scaled st.psi hdne
    have hgrow : (toPoly (tabulate maxdeg fun i => gmult (entry st.psi i)
        (ginv (computeDiscrepancy st.psi S st.L n)))).natDegree + 1 < maxdeg := by
      rw [hscale]
      have hmul := natDegree_C_mul_le (computeDiscrepancy st.psi S st.L n)⁻¹ (toPoly st.psi)
      omega
    rw [hturn, BerlekampMassey.step_eq_of_grow hzero hlt, toState, toPoly_mulZPoly hgrow, hscale,
      toPoly_psi2, hd]
    rfl
  · have hturn := (if_pos hdne).trans (if_neg hlt) (a := st.turn S n)
    rw [hturn, BerlekampMassey.step_eq_of_repair hzero hlt, toState, hshift, toPoly_psi2, hd]
    rfl

end

end Synthesis

/-- The loop computes what the algorithm on polynomials does. -/
theorem toPoly_modifiedBerlekampMassey {erasureLocs : List Nat} (S : Poly)
    (hnodup : erasureLocs.Nodup) (hlt : ∀ e ∈ erasureLocs, e < 255)
    (hlen : erasureLocs.length ≤ npar) :
    toPoly (modifiedBerlekampMassey S erasureLocs) =
      (BerlekampMassey.run (toPoly S) (locator location erasureLocs.toFinset) erasureLocs.length
        (npar - erasureLocs.length)).psi := by
  have hmax : maxdeg = npar * 2 := rfl
  have hpos : 4 < npar := by decide
  have hgamma : (locator location erasureLocs.toFinset).natDegree ≤ erasureLocs.length :=
    (natDegree_locator_le ..).trans erasureLocs.toFinset_card_le
  have hinit := toPoly_initGamma hnodup hlt (by omega)
  have hloop : ∀ m, erasureLocs.length + m ≤ npar →
      ((List.range' erasureLocs.length m).foldl (Synthesis.turn S) (.init erasureLocs)).toState =
        BerlekampMassey.run (toPoly S) (locator location erasureLocs.toFinset)
          erasureLocs.length m := by
    intro m hm
    induction m with
    | zero =>
      rw [List.range'_zero, List.foldl_nil, BerlekampMassey.run, BerlekampMassey.start,
        Synthesis.toState, Synthesis.init]
      simp only
      rw [toPoly_mulZPoly (by rw [hinit]; omega), hinit]
    | succ m ih =>
      have hprev := ih (by omega)
      obtain ⟨σ, δ, hinv⟩ := BerlekampMassey.exists_invariant (toPoly S)
        (locator location erasureLocs.toFinset) erasureLocs.length m
      rw [← hprev] at hinv
      rw [List.range'_1_concat, List.foldl_append, List.foldl_cons, List.foldl_nil,
        Synthesis.toState_turn hinv hgamma (by omega), hprev, BerlekampMassey.run]
  rw [modifiedBerlekampMassey, ← hloop _ (by omega)]
  rfl

end Rscode
