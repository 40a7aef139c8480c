import FitProjects.BMS.Berlekamp

/-! # What the library corrects

A received word differs from a codeword at some locations. When the erasures and twice the other
wrong locations are at most `NPAR`, the arrays hold the locator and the evaluator of all of them,
the roots are the locations, and the correction restores the codeword. -/

namespace Rscode

open Polynomial KeyEquation

/-! ## Wrong locations -/

section
variable (word codeword : List UInt8)

/-- What is added to the codeword at a location. -/
noncomputable def errorValue (i : Nat) : GF256 :=
  (wordPoly word).coeff i + (wordPoly codeword).coeff i

/-- The locations at which a word differs from a codeword, apart from the erasures. -/
def wrongLocs (erasures : List Nat) : Finset Nat :=
  (Finset.range word.length).filter fun i =>
    i ∉ erasures ∧ word[word.length - 1 - i]? ≠ codeword[word.length - 1 - i]?

end

variable {word codeword : List UInt8} {erasures : List Nat}

theorem wordPoly_injective (hlen : word.length = codeword.length)
    (h : wordPoly word = wordPoly codeword) : word = codeword := by
  apply List.ext_getElem hlen
  intro p hp hp'
  have hcoeff := congrArg (fun q => q.coeff (word.length - 1 - p)) h
  simp only [coeff_wordPoly, ← hlen] at hcoeff
  rw [if_pos (by omega), if_pos (by omega), Nat.sub_sub_self (by omega)] at hcoeff
  simpa [hp, hp'] using congrArg GF256.byte hcoeff

theorem errorValue_eq_zero (hlen : word.length = codeword.length)
    (hi : i ∉ wrongLocs word codeword erasures) (her : i ∉ erasures) :
    errorValue word codeword i = 0 := by
  rw [errorValue, coeff_wordPoly, coeff_wordPoly, ← hlen]
  split
  next hlt =>
    rw [wrongLocs, Finset.mem_filter, Finset.mem_range] at hi
    have heq : word[word.length - 1 - i]? = codeword[word.length - 1 - i]? := by
      by_contra hne
      exact hi ⟨hlt, her, hne⟩
    rw [List.getD_eq_getElem?_getD, List.getD_eq_getElem?_getD, heq, GF256.add_self]
  next => rfl

theorem errorValue_ne_zero (hlen : word.length = codeword.length)
    (hi : i ∈ wrongLocs word codeword erasures) : errorValue word codeword i ≠ 0 := by
  obtain ⟨hlt, -, hne⟩ := Finset.mem_filter.mp hi
  rw [Finset.mem_range] at hlt
  intro hzero
  rw [errorValue, coeff_wordPoly, coeff_wordPoly, ← hlen, if_pos hlt, if_pos hlt] at hzero
  have heq := eq_neg_of_add_eq_zero_left hzero
  rw [neg_eq] at heq
  have hp : word.length - 1 - i < word.length := by omega
  have hp' : word.length - 1 - i < codeword.length := hlen ▸ hp
  apply hne
  rw [List.getElem?_eq_getElem hp, List.getElem?_eq_getElem hp']
  simpa [hp, hp'] using congrArg GF256.byte heq

theorem wordPoly_eq {s : Finset Nat} (hs : ∀ i, i ∉ s → errorValue word codeword i = 0) :
    wordPoly word = wordPoly codeword + ∑ i ∈ s, C (errorValue word codeword i) * X ^ i := by
  ext j
  rw [coeff_add, finsetSum_coeff]
  simp only [coeff_C_mul_X_pow, Finset.sum_ite_eq]
  have hsum : (wordPoly word).coeff j =
      (wordPoly codeword).coeff j + errorValue word codeword j := by
    rw [errorValue, add_left_comm, GF256.add_self, add_zero]
  split
  next => exact hsum
  next hj => rw [hsum, hs j hj]

/-- The syndromes of a word are the power sums of its differences from a word without syndromes. -/
theorem toPoly_decodeData (hcode : ∀ j < npar, syndromeByte codeword j = 0) {s : Finset Nat}
    (hs : ∀ i, i ∉ s → errorValue word codeword i = 0) :
    toPoly (decodeData word) = syndromes location (errorValue word codeword) s npar := by
  rw [toPoly_eq_iff]
  intro j
  rw [decodeData, entry_tabulate, syndromes, finsetSum_coeff]
  simp only [coeff_C_mul_X_pow, Finset.sum_ite_eq, Finset.mem_range]
  have hle : npar ≤ maxdeg := by decide
  rcases Nat.lt_or_ge j npar with hj | hj
  · rw [if_pos (by omega), if_pos hj, if_pos hj, syndromeByte_eq word hj, wordPoly_eq hs, eval_add,
      ← syndromeByte_eq codeword hj, hcode j hj, zero_add, eval_finsetSum]
    refine Finset.sum_congr rfl fun i _ => ?_
    rw [eval_mul, eval_C, eval_pow, eval_X, location, ← pow_mul, ← pow_mul, Nat.mul_comm]
  · rw [if_neg (Nat.not_lt_of_le hj), if_neg (Nat.not_lt_of_le hj), ite_self]

/-! ## Roots and magnitudes -/

theorem location_inv (hi : i ≤ 255) : (location i)⁻¹ = alpha ^ (255 - i) := by
  rw [location, inv_eq_iff_eq_inv, eq_comm]
  apply inv_eq_of_mul_eq_one_right
  rw [← pow_add, Nat.sub_add_cancel hi, alpha_pow_period]

theorem rootSum_eq {lambda : Poly} (hdeg : (toPoly lambda).natDegree ≤ npar) (r : Nat) :
    rootSum lambda r = (toPoly lambda).eval (alpha ^ r) := by
  rw [rootSum, foldl_xor_eq_sum, eval_eq_sum_range' (Nat.lt_succ_of_le hdeg)]
  refine Finset.sum_congr rfl fun k _ => ?_
  rw [gmult_eq_mul, gexp_mod, coeff_toPoly, mul_comm, Nat.mul_comm, pow_mul]

theorem errorNum_eq (omega : Poly) (hi : i ≤ 255) :
    errorNum omega i = (toPoly omega).eval (location i)⁻¹ := by
  rw [errorNum, foldl_xor_eq_sum, eval_toPoly, location_inv hi]
  refine Finset.sum_congr rfl fun j _ => ?_
  rw [gmult_eq_mul, gexp_mod, pow_mul]

/-- The even powers disappear from the derivative. -/
theorem eval_derivative_toPoly (lambda : Poly) (z : GF256) :
    (derivative (toPoly lambda)).eval z =
      ∑ m ∈ Finset.range npar, entry lambda (2 * m + 1) * z ^ (2 * m) := by
  have hsplit : ∀ (f : Nat → GF256) (n : Nat),
      ∑ j ∈ Finset.range (n * 2), f j = ∑ m ∈ Finset.range n, (f (2 * m) + f (2 * m + 1)) := by
    intro f n
    induction n with
    | zero => rfl
    | succ n ih =>
      rw [Nat.succ_mul, Finset.sum_range_succ, Finset.sum_range_succ, ih, Finset.sum_range_succ,
        Nat.mul_comm n 2, add_assoc]
  have heven : ∀ m : Nat, ((2 * m : Nat) : GF256) = 0 := fun m =>
    (CharP.cast_eq_zero_iff GF256 2 _).mpr (Nat.dvd_mul_right 2 m)
  have htop : toPoly lambda = ∑ i ∈ Finset.range (npar * 2), C (entry lambda i) * X ^ i := by
    rw [toPoly]
    rfl
  rw [htop, derivative_sum, eval_finsetSum, hsplit]
  refine Finset.sum_congr rfl fun m _ => ?_
  rw [derivative_C_mul_X_pow, derivative_C_mul_X_pow, Nat.cast_succ, heven, mul_zero, zero_add,
    mul_one, C_0, zero_mul, eval_zero, zero_add, Nat.add_sub_cancel, eval_mul, eval_C, eval_pow,
    eval_X]

theorem errorDenom_eq (lambda : Poly) (hi : i ≤ 255) :
    errorDenom lambda i = (derivative (toPoly lambda)).eval (location i)⁻¹ := by
  rw [errorDenom, foldl_xor_eq_sum, eval_derivative_toPoly, location_inv hi]
  refine Finset.sum_congr rfl fun m _ => ?_
  rw [gmult_eq_mul, gexp_mod, Nat.add_sub_cancel, pow_mul]

section
variable {lambda omega : Poly} {s : Finset Nat} (hs : ∀ i ∈ s, i < 255)
  (hlambda : toPoly lambda = locator location s)
include hs hlambda

theorem rootSum_eq_zero_iff (hcard : s.card ≤ npar) (hi : i < 255) :
    rootSum lambda (255 - i) = 0 ↔ i ∈ s := by
  have hdeg : (toPoly lambda).natDegree ≤ npar := by
    rw [hlambda]
    exact (natDegree_locator_le ..).trans hcard
  rw [rootSum_eq hdeg, ← location_inv (Nat.le_of_lt hi), hlambda,
    eval_locator_eq_zero_iff fun i _ => location_ne_zero i]
  constructor
  · rintro ⟨j, hj, heq⟩
    rwa [alpha_pow_inj hi (hs j hj) (inv_injective heq)]
  · intro hmem
    exact ⟨i, hmem, rfl⟩

/-- The roots that are found are the locations, each once. -/
theorem findRoots_spec (hcard : s.card ≤ npar) :
    (findRoots lambda).Nodup ∧ (findRoots lambda).toFinset = s := by
  constructor
  · apply List.Nodup.map_on _ ((List.nodup_range' ..).filter _)
    intro r hr r' hr' heq
    have hle := List.mem_range'_1.mp (List.mem_filter.mp hr).1
    have hle' := List.mem_range'_1.mp (List.mem_filter.mp hr').1
    omega
  · ext i
    rw [List.mem_toFinset, findRoots, List.mem_map]
    constructor
    · rintro ⟨r, hr, rfl⟩
      obtain ⟨hrange, hroot⟩ := List.mem_filter.mp hr
      have hle := List.mem_range'_1.mp hrange
      rw [← rootSum_eq_zero_iff hs hlambda hcard (by omega), Nat.sub_sub_self (by omega)]
      exact of_decide_eq_true hroot
    · intro hi
      have hlt := hs i hi
      refine ⟨255 - i, List.mem_filter.mpr ⟨List.mem_range'_1.mpr (by omega), ?_⟩, by omega⟩
      exact decide_eq_true ((rootSum_eq_zero_iff hs hlambda hcard hlt).mpr hi)

theorem errorMagnitude_eq {y : Nat → GF256} (homega : toPoly omega = evaluator location y s)
    (hi : i ∈ s) : errorMagnitude lambda omega i = y i := by
  have hle := Nat.le_of_lt (hs i hi)
  have hx : ∀ j ∈ s, location j ≠ 0 := fun j _ => location_ne_zero j
  have hne : (derivative (locator location s)).eval (location i)⁻¹ ≠ 0 := by
    rw [eval_derivative_locator hx hi, neg_ne_zero]
    exact mul_ne_zero (hx i hi) (eval_locator_erase_ne_zero hx (injOn_location hs) hi)
  rw [errorMagnitude, errorNum_eq _ hle, errorDenom_eq _ hle, hlambda, homega, gmult_eq_mul,
    ginv_eq_inv hne, ← div_eq_mul_inv, value_eq (y := y) hx (injOn_location hs) hi, neg_eq]

end

/-! ## The correction in place -/

theorem wordPoly_modify (hi : i < word.length) (e : GF256) :
    wordPoly (word.modify (word.length - i - 1) fun b => b ^^^ e.byte) =
      wordPoly word + C e * X ^ i := by
  ext j
  rw [coeff_add, coeff_C_mul_X_pow, coeff_wordPoly, coeff_wordPoly, List.length_modify]
  split
  next hj =>
    have hp : word.length - 1 - j < word.length := by omega
    have hplace : word.length - i - 1 = word.length - 1 - j ↔ j = i := by omega
    rw [List.getD_eq_getElem?_getD, List.getD_eq_getElem?_getD, List.getElem?_modify,
      List.getElem?_eq_getElem hp]
    simp only [hplace, Option.map_eq_map, Option.map_some, Option.getD_some]
    split
    next => rfl
    next => rw [add_zero]
  next hj => rw [if_neg (by omega), add_zero]

theorem wordPoly_foldl_modify (e : Nat → GF256) (locs : List Nat)
    (hlocs : ∀ i ∈ locs, i < word.length) :
    (locs.foldl (fun codeword' i => codeword'.modify (word.length - i - 1)
        fun b => b ^^^ (e i).byte) word).length = word.length ∧
      wordPoly (locs.foldl (fun codeword' i => codeword'.modify (word.length - i - 1)
        fun b => b ^^^ (e i).byte) word) =
          wordPoly word + (locs.map fun i => C (e i) * X ^ i).sum := by
  induction locs using List.reverseRecOn with
  | nil => exact ⟨rfl, (add_zero _).symm⟩
  | append_singleton locs i ih =>
    obtain ⟨hlen, hpoly⟩ := ih fun j hj => hlocs j (List.mem_append_left _ hj)
    have hi := hlocs i (List.mem_append_right _ (List.mem_singleton_self i))
    rw [List.foldl_append, List.foldl_cons, List.foldl_nil, List.length_modify]
    refine ⟨hlen, ?_⟩
    rw [← hlen] at hi
    have hmodify := wordPoly_modify hi (e i)
    rw [hlen] at hmodify
    rw [hmodify, hpoly, List.map_append, List.sum_append, List.map_singleton, List.sum_singleton,
      add_assoc]

/-- A word without syndromes is restored when the erasures and twice the other wrong bytes are at most
as many as the parity bytes. -/
theorem correctErrorsErasures_of_syndromes (hcode : ∀ j < npar, syndromeByte codeword j = 0)
    (hlen : word.length = codeword.length) (h255' : word.length ≤ 255)
    (hnodup : erasures.Nodup) (hlt : ∀ e ∈ erasures, e < word.length)
    (hwrong : 2 * (wrongLocs word codeword erasures).card + erasures.length ≤ npar) :
    (correctErrorsErasures (decodeData word) word erasures).1 = codeword := by
  -- all locations that may be wrong
  obtain ⟨s, hs⟩ : ∃ s, s = erasures.toFinset ∪ wrongLocs word codeword erasures :=
    ⟨_, rfl⟩
  have hdisj : Disjoint (wrongLocs word codeword erasures) erasures.toFinset := by
    rw [Finset.disjoint_left]
    intro i hi her
    exact (Finset.mem_filter.mp hi).2.1 (List.mem_toFinset.mp her)
  have hcard : s.card = erasures.length + (wrongLocs word codeword erasures).card := by
    rw [hs, Finset.card_union_of_disjoint hdisj.symm, List.toFinset_card_of_nodup hnodup]
  have hlocs : ∀ i ∈ s, i < word.length := by
    intro i hi
    rcases Finset.mem_union.mp (hs ▸ hi) with hi | hi
    · exact hlt i (List.mem_toFinset.mp hi)
    · exact Finset.mem_range.mp (Finset.mem_filter.mp hi).1
  have h255 : ∀ i ∈ s, i < 255 := fun i hi => by
    have := hlocs i hi
    omega
  have hzero : ∀ i, i ∉ s → errorValue word codeword i = 0 := by
    intro i hi
    rw [hs, Finset.mem_union, not_or, List.mem_toFinset] at hi
    exact errorValue_eq_zero hlen hi.2 hi.1
  have hx : ∀ i ∈ s, location i ≠ 0 := fun i _ => location_ne_zero i
  have hsyn := toPoly_decodeData hcode hzero
  -- the locator
  have hlambda : toPoly (modifiedBerlekampMassey (decodeData word) erasures) =
      locator location s := by
    rw [toPoly_modifiedBerlekampMassey _ hnodup (fun e he => h255 e (by simp [hs, he])) (by omega),
      hs, locator_union hdisj.symm]
    have hkey : ∀ j < npar, (locator location (wrongLocs word codeword erasures) *
        (locator location erasures.toFinset * toPoly (decodeData word))).coeff j =
          (evaluator location (errorValue word codeword) s).coeff j := by
      intro j hj
      rw [← mul_assoc, ← locator_union hdisj, Finset.union_comm, ← hs, hsyn,
        coeff_locator_mul_syndromes hj]
    refine BerlekampMassey.psi_run_eq ?_ ?_ hkey ?_ ?_ hwrong
    · exact fun i _ => location_ne_zero i
    · exact injOn_location fun i hi => h255 i (hs ▸ Finset.mem_union_right _ hi)
    · intro j hj
      exact coeff_evaluator_eq_zero (by omega)
    · intro i hi
      exact eval_evaluator_ne_zero hx (injOn_location h255) (hs ▸ Finset.mem_union_right _ hi)
        (errorValue_ne_zero hlen hi)
  -- the evaluator
  have homega : toPoly (computeModifiedOmega
      (modifiedBerlekampMassey (decodeData word) erasures) (decodeData word)) =
        evaluator location (errorValue word codeword) s := by
    have hle : npar ≤ maxdeg := by decide
    rw [toPoly_eq_iff]
    intro j
    rw [computeModifiedOmega, entry_tabulate, ← coeff_toPoly, toPoly_multPolys, hlambda, hsyn]
    rcases Nat.lt_or_ge j npar with hj | hj
    · rw [if_pos (by omega), if_pos hj, coeff_locator_mul_syndromes hj]
    · rw [if_neg (Nat.not_lt_of_le hj), ite_self, coeff_evaluator_eq_zero (by omega)]
  obtain ⟨hroots, hset⟩ := findRoots_spec h255 hlambda (by omega)
  have hlength := List.toFinset_card_of_nodup hroots
  rw [hset] at hlength
  have hinside : ∀ i ∈ findRoots (modifiedBerlekampMassey (decodeData word) erasures),
      i < word.length := by
    intro i hi
    exact hlocs i (hset ▸ List.mem_toFinset.mpr hi)
  obtain ⟨hfoldlen, hfold⟩ := wordPoly_foldl_modify (errorMagnitude
    (modifiedBerlekampMassey (decodeData word) erasures)
    (computeModifiedOmega (modifiedBerlekampMassey (decodeData word) erasures) (decodeData word)))
    _ hinside
  have hsum : ((findRoots (modifiedBerlekampMassey (decodeData word) erasures)).map fun i =>
      C (errorMagnitude (modifiedBerlekampMassey (decodeData word) erasures)
        (computeModifiedOmega (modifiedBerlekampMassey (decodeData word) erasures)
          (decodeData word)) i) * X ^ i).sum =
      ∑ i ∈ s, C (errorValue word codeword i) * X ^ i := by
    rw [← List.sum_toFinset _ hroots, hset]
    refine Finset.sum_congr rfl fun i hi => ?_
    rw [errorMagnitude_eq h255 hlambda homega hi]
  have hrestored := wordPoly_eq hzero
  simp only [correctErrorsErasures]
  split
  next =>
    rw [if_neg]
    · apply wordPoly_injective (hfoldlen.trans hlen)
      rw [hfold, hsum, hrestored, add_assoc, CharTwo.add_self_eq_zero, add_zero]
    · rw [List.any_eq_true]
      rintro ⟨i, hi, hge⟩
      exact absurd (hinside i hi) (Nat.not_lt_of_le (of_decide_eq_true hge))
  next hnone =>
    -- no locations: the word is the codeword
    have hempty : s = ∅ := by
      rw [← Finset.card_eq_zero]
      omega
    apply wordPoly_injective hlen
    rw [hrestored, hempty, Finset.sum_empty, add_zero]

/-- The library restores a codeword when the erasures and twice the other wrong bytes are at most as
many as the parity bytes. -/
theorem correctErrorsErasures_eq (msg word : List UInt8) (erasures : List Nat)
    (hmsg : msg.length + npar ≤ 255) (hlen : word.length = msg.length + npar)
    (hnodup : erasures.Nodup) (hlt : ∀ e ∈ erasures, e < word.length)
    (hwrong : 2 * (wrongLocs word (encodeData msg) erasures).card + erasures.length ≤ npar) :
    (correctErrorsErasures (decodeData word) word erasures).1 = encodeData msg :=
  correctErrorsErasures_of_syndromes (fun _ hj => syndromeByte_encodeData msg hj)
    (hlen.trans (length_encodeData msg).symm) (hlen.trans_le hmsg) hnodup hlt hwrong

/-- A wrong first byte, and the last byte taken for an erasure. -/
theorem correctErrorsErasures_three :
    (correctErrorsErasures (decodeData ((encodeData [1, 2, 3]).set 0 9))
      ((encodeData [1, 2, 3]).set 0 9) [0]).1 = encodeData [1, 2, 3] := by
  have hlen : ((encodeData [1, 2, 3]).set 0 9).length = 112 := by
    rw [List.length_set, length_encodeData]
    rfl
  have hwrong : wrongLocs ((encodeData [1, 2, 3]).set 0 9) (encodeData [1, 2, 3]) [0] ⊆ {111} := by
    intro i hi
    obtain ⟨hlt, -, hne⟩ := Finset.mem_filter.mp hi
    rw [Finset.mem_range] at hlt
    rw [Finset.mem_singleton]
    by_contra hi
    exact hne (List.getElem?_set_ne (by omega))
  apply correctErrorsErasures_eq [1, 2, 3] _ [0] (by decide) hlen (List.nodup_singleton 0)
  · intro e he
    rw [List.mem_singleton.mp he, hlen]
    decide
  · have hcard := Finset.card_le_card hwrong
    rw [Finset.card_singleton] at hcard
    have hnpar : npar = 109 := rfl
    rw [List.length_singleton]
    omega

end Rscode
