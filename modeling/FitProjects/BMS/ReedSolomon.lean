import FitProjects.BMS.PolynomialArrays
import FitProjects.Lib.KeyEquation

/-! # Encoder and syndromes

`lib/rs.c` of `BMS/proj1`: the generator polynomial, the shift register that computes the parity
bytes, and the syndromes. A word is read as a polynomial whose highest coefficient is its first
byte. -/

namespace Rscode

/-! ## The generator polynomial -/

/-- `tp1` and `genpoly` after `i` turns of the loop of `compute_genpoly`. -/
def genpolyLoop : Nat → Poly × Vector GF256 (maxdeg * 2)
  | 0 => (onePoly, tabulate _ fun _ => 0)
  | i + 1 =>
    let tp := tabulate maxdeg fun j => if j = 0 then gexp (i + 1) else if j = 1 then 1 else 0
    let genpoly := multPolys tp (genpolyLoop i).1
    (tabulate maxdeg (entry genpoly), genpoly)

def computeGenpoly (nbytes : Nat) : Vector GF256 (maxdeg * 2) := (genpolyLoop nbytes).2

def genPoly : Vector GF256 (maxdeg * 2) := computeGenpoly npar

/-! ## Encoding -/

/-- A turn of the loop over the message. -/
def lfsrTurn (lfsr : Vector GF256 (npar + 1)) (b : UInt8) : Vector GF256 (npar + 1) :=
  let dbyte := ⟨b⟩ ^^^ entry lfsr (npar - 1)
  tabulate (npar + 1) fun j =>
    if j = 0 then gmult (entry genPoly 0) dbyte
    else if j < npar then entry lfsr (j - 1) ^^^ gmult (entry genPoly j) dbyte
    else entry lfsr j

def lfsr (msg : List UInt8) : Vector GF256 (npar + 1) :=
  msg.foldl lfsrTurn (tabulate _ fun _ => 0)

/-- `build_codeword`: the parity bytes are the register from the top. -/
def buildCodeword (msg : List UInt8) (pBytes : Vector GF256 (npar + 1)) : List UInt8 :=
  msg ++ (List.range npar).map fun i => (entry pBytes (npar - 1 - i)).byte

def encodeData (msg : List UInt8) : List UInt8 := buildCodeword msg (lfsr msg)

/-! ## Syndromes -/

/-- The sum that `decode_data` computes for entry `j`. -/
def syndromeByte (data : List UInt8) (j : Nat) : GF256 :=
  data.foldl (fun sum b => ⟨b⟩ ^^^ gmult (gexp (j + 1)) sum) 0

/-- `synBytes`; the entries from `NPAR` on are never written. -/
def decodeData (data : List UInt8) : Poly :=
  tabulate maxdeg fun j => if j < npar then syndromeByte data j else 0

/-! ## Words as polynomials -/

open Polynomial

noncomputable def wordPoly (data : List UInt8) : GF256[X] :=
  data.foldl (fun p b => p * X + C ⟨b⟩) 0

theorem wordPoly_nil : wordPoly [] = 0 := rfl

theorem wordPoly_concat (data : List UInt8) (b : UInt8) :
    wordPoly (data ++ [b]) = wordPoly data * X + C ⟨b⟩ := by
  rw [wordPoly, List.foldl_append]
  rfl

theorem wordPoly_replicate_zero (n : Nat) : wordPoly (List.replicate n 0) = 0 := by
  induction n with
  | zero => rfl
  | succ n ih => rw [List.replicate_succ', wordPoly_concat, ih, zero_mul, zero_add]; exact C_0

theorem coeff_wordPoly (data : List UInt8) (i : Nat) :
    (wordPoly data).coeff i =
      if i < data.length then ⟨data.getD (data.length - 1 - i) 0⟩ else 0 := by
  induction data using List.reverseRecOn generalizing i with
  | nil => rfl
  | append_singleton data b ih =>
    rw [wordPoly_concat, List.length_append, List.length_singleton, Nat.add_sub_cancel]
    cases i with
    | zero => simp
    | succ i =>
      rw [coeff_add, coeff_mul_X, coeff_C_succ, add_zero, ih]
      simp only [Nat.add_lt_add_iff_right]
      split
      next hi =>
        rw [List.getD_eq_getElem?_getD, List.getD_eq_getElem?_getD,
          List.getElem?_append_left (by omega), Nat.sub_sub, Nat.add_comm 1 i]
      next => rfl

theorem wordPoly_append (data parity : List UInt8) :
    wordPoly (data ++ parity) = wordPoly data * X ^ parity.length + wordPoly parity := by
  induction parity using List.reverseRecOn with
  | nil => rw [List.append_nil, wordPoly_nil, List.length_nil, pow_zero, mul_one, add_zero]
  | append_singleton parity b ih =>
    rw [← List.append_assoc, wordPoly_concat, ih, wordPoly_concat, List.length_append,
      List.length_singleton, pow_succ]
    ring

theorem syndromeByte_concat (data : List UInt8) (b : UInt8) (j : Nat) :
    syndromeByte (data ++ [b]) j = ⟨b⟩ ^^^ gmult (gexp (j + 1)) (syndromeByte data j) := by
  simp only [syndromeByte, List.foldl_append, List.foldl_cons, List.foldl_nil]

theorem syndromeByte_eq (data : List UInt8) (hj : j < npar) :
    syndromeByte data j = (wordPoly data).eval (alpha ^ (j + 1)) := by
  have hle : j + 1 ≤ 510 := Nat.le_trans hj (by decide)
  induction data using List.reverseRecOn with
  | nil => exact eval_zero.symm
  | append_singleton data b ih =>
    rw [wordPoly_concat, eval_add, eval_mul, eval_X, eval_C, ← ih, syndromeByte_concat,
      gmult_eq_mul, gexp_eq_pow hle, GF256.xor_eq_add, add_comm, mul_comm]

/-! ## The generator polynomial has the powers as roots -/

/-- The product of the factors. -/
noncomputable def generator (n : Nat) : GF256[X] :=
  ∏ i ∈ Finset.range n, (X + C (alpha ^ (i + 1)))

theorem generator_monic (n : Nat) : (generator n).Monic :=
  monic_prod_of_monic _ _ fun _ _ => monic_X_add_C _

theorem natDegree_generator (n : Nat) : (generator n).natDegree = n := by
  rw [generator, natDegree_prod_of_monic _ _ fun _ _ => monic_X_add_C _]
  simp only [natDegree_X_add_C, Finset.sum_const, Finset.card_range, smul_eq_mul, mul_one]

theorem eval_generator (hj : j < n) : (generator n).eval (alpha ^ (j + 1)) = 0 := by
  rw [generator, eval_prod]
  apply Finset.prod_eq_zero (Finset.mem_range.mpr hj)
  rw [eval_add, eval_X, eval_C, GF256.add_self]

theorem toPoly_genpolyLoop (hi : i < maxdeg) :
    toPoly (genpolyLoop i).1 = generator i ∧ (0 < i → toPoly (genpolyLoop i).2 = generator i) := by
  induction i with
  | zero =>
    refine ⟨?_, fun hpos => absurd hpos (Nat.lt_irrefl 0)⟩
    rw [generator, Finset.range_zero, Finset.prod_empty]
    exact toPoly_onePoly
  | succ i ih =>
    have hfactor : toPoly (tabulate maxdeg fun j =>
        if j = 0 then gexp (i + 1) else if j = 1 then 1 else 0) = X + C (alpha ^ (i + 1)) := by
      have hle : i + 1 ≤ 510 := Nat.le_trans (Nat.le_of_lt hi) (by decide)
      rw [toPoly_eq_iff]
      intro j
      rw [entry_tabulate, coeff_add, coeff_X, coeff_C, gexp_eq_pow hle]
      rcases j with _ | _ | j
      · simp [maxdeg, npar]
      · simp [maxdeg, npar]
      · simp
    have hproduct : toPoly (genpolyLoop (i + 1)).2 = generator (i + 1) := by
      rw [genpolyLoop, toPoly_multPolys, hfactor, (ih (Nat.lt_of_succ_lt hi)).1, generator,
        generator, Finset.prod_range_succ, mul_comm]
    refine ⟨?_, fun _ => hproduct⟩
    have hfst : (genpolyLoop (i + 1)).1 = tabulate maxdeg (entry (genpolyLoop (i + 1)).2) := rfl
    rw [hfst, toPoly_eq_iff]
    intro j
    rw [entry_tabulate, ← coeff_toPoly, hproduct]
    split
    next => rfl
    next hj =>
      have hdeg : (generator (i + 1)).natDegree < j := by
        rw [natDegree_generator]
        omega
      exact (coeff_eq_zero_of_natDegree_lt hdeg).symm

theorem toPoly_genPoly : toPoly genPoly = generator npar :=
  (toPoly_genpolyLoop (by decide)).2 (by decide)

/-! ## Codewords -/

/-- The register as a polynomial, without the entry that is never used. -/
noncomputable def lfsrPoly (lfsr : Vector GF256 (npar + 1)) : GF256[X] :=
  ∑ j ∈ Finset.range npar, C (entry lfsr j) * X ^ j

theorem coeff_lfsrPoly (lfsr : Vector GF256 (npar + 1)) (j : Nat) :
    (lfsrPoly lfsr).coeff j = if j < npar then entry lfsr j else 0 := by
  rw [lfsrPoly, finsetSum_coeff]
  simp only [coeff_C_mul_X_pow, Finset.sum_ite_eq, Finset.mem_range]

/-- The entries of the generator polynomial, with its degree. -/
theorem entry_genPoly (j : Nat) :
    (generator npar).coeff j = if j < npar then entry genPoly j else if j = npar then 1 else 0 := by
  split
  next => rw [← toPoly_genPoly, coeff_toPoly]
  next hlt =>
    have hdeg := natDegree_generator npar
    split
    next heq =>
      rw [heq]
      nth_rewrite 2 [← hdeg]
      exact (generator_monic npar).coeff_natDegree
    next hne => exact coeff_eq_zero_of_natDegree_lt (by omega)

/-- A turn divides by the generator polynomial: the register keeps the remainder. -/
theorem lfsrPoly_lfsrTurn (lfsr : Vector GF256 (npar + 1)) (b : UInt8) :
    C ⟨b⟩ * X ^ npar + lfsrPoly (lfsrTurn lfsr b) =
      X * lfsrPoly lfsr + C (⟨b⟩ + entry lfsr (npar - 1)) * generator npar := by
  ext j
  have hpos : 0 < npar := by decide
  rw [coeff_add, coeff_add, coeff_C_mul, coeff_X_pow, coeff_C_mul, entry_genPoly, coeff_lfsrPoly,
    lfsrTurn, entry_tabulate]
  simp only [gmult_eq_mul, GF256.xor_eq_add]
  cases j with
  | zero =>
    rw [coeff_X_mul_zero, if_neg (Nat.ne_of_lt hpos), if_pos hpos, if_pos (Nat.zero_lt_succ _),
      if_pos rfl, if_pos hpos, mul_zero, zero_add, zero_add, mul_comm]
  | succ j =>
    rw [coeff_X_mul, coeff_lfsrPoly, if_neg (Nat.succ_ne_zero j)]
    rcases Nat.lt_trichotomy (j + 1) npar with hlt | heq | hgt
    · rw [if_neg (Nat.ne_of_lt hlt), if_pos hlt, if_pos (by omega), if_pos hlt, if_pos (by omega),
        if_pos hlt, mul_zero, zero_add, mul_comm (entry genPoly _), Nat.add_sub_cancel]
    · -- the byte that is shifted out
      have hout : j = npar - 1 := by omega
      have hlt : ¬ j + 1 < npar := Nat.not_lt_of_le (Nat.le_of_eq heq.symm)
      rw [if_pos heq, if_neg hlt, if_pos (by omega), if_neg hlt, mul_one, mul_one, add_zero, hout,
        add_left_comm, GF256.add_self, add_zero]
    · have hlt : ¬ j + 1 < npar := Nat.lt_asymm hgt
      rw [if_neg (Nat.ne_of_gt hgt), if_neg hlt, if_neg (by omega), if_neg hlt, mul_zero, mul_zero,
        add_zero]

theorem generator_dvd (msg : List UInt8) :
    generator npar ∣ wordPoly msg * X ^ npar + lfsrPoly (lfsr msg) := by
  induction msg using List.reverseRecOn with
  | nil =>
    have hzero : lfsrPoly (lfsr []) = 0 := by
      ext j
      rw [coeff_lfsrPoly, lfsr, List.foldl_nil, entry_tabulate, ite_self, ite_self, coeff_zero]
    rw [hzero, wordPoly_nil, zero_mul, add_zero]
    exact dvd_zero _
  | append_singleton msg b ih =>
    have hturn := lfsrPoly_lfsrTurn (lfsr msg) b
    have hlfsr : lfsr (msg ++ [b]) = lfsrTurn (lfsr msg) b := by rw [lfsr, List.foldl_append]; rfl
    have heq : wordPoly (msg ++ [b]) * X ^ npar + lfsrPoly (lfsr (msg ++ [b])) =
        X * (wordPoly msg * X ^ npar + lfsrPoly (lfsr msg)) +
          C (⟨b⟩ + entry (lfsr msg) (npar - 1)) * generator npar := by
      rw [wordPoly_concat, hlfsr, add_mul, add_assoc, hturn]
      ring
    obtain ⟨q, hq⟩ := ih
    rw [heq, hq]
    exact ⟨X * q + C (⟨b⟩ + entry (lfsr msg) (npar - 1)), by ring⟩

/-- The parity bytes are the register. -/
theorem wordPoly_parity (p : Vector GF256 (npar + 1)) :
    wordPoly ((List.range npar).map fun i => (entry p (npar - 1 - i)).byte) = lfsrPoly p := by
  ext j
  rw [coeff_wordPoly, coeff_lfsrPoly, List.length_map, List.length_range]
  split
  next hj =>
    have hlt : npar - 1 - j < (List.range npar).length := by
      rw [List.length_range]
      omega
    rw [List.getD_eq_getElem?_getD, List.getElem?_map, List.getElem?_eq_getElem hlt,
      List.getElem_range, Option.map_some, Option.getD_some, Nat.sub_sub_self (by omega)]
  next => rfl

theorem length_encodeData (msg : List UInt8) : (encodeData msg).length = msg.length + npar := by
  rw [encodeData, buildCodeword, List.length_append, List.length_map, List.length_range]

/-- A codeword is a multiple of the generator polynomial. -/
theorem generator_dvd_wordPoly (msg : List UInt8) :
    generator npar ∣ wordPoly (encodeData msg) := by
  rw [encodeData, buildCodeword, wordPoly_append, wordPoly_parity, List.length_map,
    List.length_range]
  exact generator_dvd msg

theorem eval_encodeData (msg : List UInt8) (hj : j < npar) :
    (wordPoly (encodeData msg)).eval (alpha ^ (j + 1)) = 0 := by
  obtain ⟨q, hq⟩ := generator_dvd_wordPoly msg
  rw [hq, eval_mul, eval_generator hj, zero_mul]

theorem syndromeByte_encodeData (msg : List UInt8) (hj : j < npar) :
    syndromeByte (encodeData msg) j = 0 := by
  rw [syndromeByte_eq _ hj, eval_encodeData msg hj]

end Rscode
