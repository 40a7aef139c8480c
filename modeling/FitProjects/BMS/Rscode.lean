import FitProjects.BMS.BerlekampCorrect
import FitProjects.BMS.RoundTrip

/-! # The codec with its library

The library of `BMS/proj1/lib` put in the place of the parameter of encoder and decoder: its
codewords are the words without syndromes, it sees up to 109 wrong bytes and corrects up to 54, and
so do encoder and decoder with every codeword of a file. -/

namespace Rscode

open KeyEquation

/-! ## Detection -/

/-- The polynomials of two words differ by the errors of as many locations as the words have
different bytes. -/
theorem card_wrongLocs_le {word codeword : List UInt8} (hlen : word.length = codeword.length) :
    (wrongLocs word codeword []).card ≤ differences word codeword := by
  apply Finset.card_le_card_of_injOn fun i => word.length - 1 - i
  · intro i hi
    obtain ⟨hlt, -, hne⟩ := Finset.mem_filter.mp hi
    have hlt := Finset.mem_range.mp hlt
    have hp : word.length - 1 - i < word.length := by omega
    rw [Finset.mem_coe, Finset.mem_filter, Finset.mem_range, ← hlen, max_self]
    exact ⟨hp, hne⟩
  · intro i hi j hj heq
    have hi := Finset.mem_range.mp (Finset.mem_filter.mp hi).1
    have hj := Finset.mem_range.mp (Finset.mem_filter.mp hj).1
    simp only at heq
    omega

/-- A word without syndromes that has at most `NPAR` wrong bytes has none. -/
theorem eq_of_syndromeByte_eq_zero {msg word : List UInt8} (hmsg : msg.length + npar ≤ 255)
    (hlen : word.length = msg.length + npar) (hwrong : differences word (encodeData msg) ≤ npar)
    (hzero : ∀ j < npar, syndromeByte word j = 0) : word = encodeData msg := by
  have hcode : word.length = (encodeData msg).length := hlen.trans (length_encodeData msg).symm
  have herror : ∀ i, i ∉ wrongLocs word (encodeData msg) [] →
      errorValue word (encodeData msg) i = 0 :=
    fun i hi => errorValue_eq_zero hcode hi List.not_mem_nil
  have hx : ∀ i ∈ wrongLocs word (encodeData msg) [], location i ≠ 0 :=
    fun i _ => location_ne_zero i
  have hinj : Set.InjOn location (wrongLocs word (encodeData msg) []) := by
    apply injOn_location
    intro i hi
    have hlt := Finset.mem_range.mp (Finset.mem_filter.mp hi).1
    omega
  have hsum : ∀ j < npar, syndrome location (errorValue word (encodeData msg))
      (wrongLocs word (encodeData msg) []) j = 0 := by
    intro j hj
    have hentry := toPoly_eq_iff.mp
      (toPoly_decodeData (fun _ hj => syndromeByte_encodeData msg hj) herror) j
    rw [decodeData, entry_tabulate, if_pos (Nat.lt_trans hj (by decide)), if_pos hj, hzero j hj,
      syndromes, Polynomial.finsetSum_coeff] at hentry
    simpa only [Polynomial.coeff_C_mul_X_pow, Finset.sum_ite_eq, Finset.mem_range, if_pos hj] using
      hentry.symm
  apply wordPoly_injective hcode
  rw [wordPoly_eq herror, Finset.sum_eq_zero, add_zero]
  intro i hi
  rw [value_eq_zero hx hinj ((card_wrongLocs_le hcode).trans hwrong) hsum hi, Polynomial.C_0,
    zero_mul]

/-- Two words that agree in all but the parity bytes. -/
theorem differences_append_le (msg parity parity' : List UInt8) (hlen : parity.length = n)
    (hlen' : parity'.length = n) : differences (msg ++ parity) (msg ++ parity') ≤ n := by
  have hcard : (Finset.Ico msg.length (msg.length + n)).card = n := by
    rw [Nat.card_Ico, Nat.add_sub_cancel_left]
  rw [← hcard]
  apply differences_le
  intro p hne
  rw [Finset.mem_Ico]
  constructor
  · by_contra hlt
    have hlt := Nat.lt_of_not_le hlt
    exact hne (by rw [List.getElem?_append_left hlt, List.getElem?_append_left hlt])
  · by_contra hge
    apply hne
    rw [List.getElem?_eq_none (by rw [List.length_append]; omega),
      List.getElem?_eq_none (by rw [List.length_append]; omega)]

end Rscode

namespace Codec

open Rscode (npar maxdeg tabulate syndromeByte)

/-- The library. `synBytes` are the numbers that `decode_data` leaves. -/
def rscode : Ecc where
  encodeData := Rscode.encodeData
  decodeData data := (List.range npar).map fun j => (syndromeByte data j).byte.toNat
  correctErrorsErasures synBytes codeword :=
    (Rscode.correctErrorsErasures (tabulate maxdeg fun j => ⟨UInt8.ofNat (synBytes.getD j 0)⟩)
      codeword []).1
  length_correctErrorsErasures synBytes codeword := by
    have hfold : ∀ (f : List UInt8 → Nat → List UInt8) (locs : List Nat) (word : List UInt8),
        (∀ w i, (f w i).length = w.length) → (locs.foldl f word).length = word.length := by
      intro f locs word hf
      induction locs generalizing word with
      | nil => rfl
      | cons i locs ih => rw [List.foldl_cons, ih, hf]
    simp only [Rscode.correctErrorsErasures]
    split
    · split
      · rfl
      · exact hfold _ _ _ fun w i => List.length_modify ..
    · rfl

theorem checkSyndrome_eq_zero_iff (word : List UInt8) :
    checkSyndrome (rscode.decodeData word) = 0 ↔ ∀ j < npar, syndromeByte word j = 0 := by
  have hbyte : ∀ a : Rscode.GF256, a.byte.toNat = 0 ↔ a = 0 := by
    intro a
    constructor
    · intro h
      exact congrArg Rscode.GF256.mk (UInt8.toNat_inj.mp h)
    · rintro rfl
      rfl
  rw [checkSyndrome]
  simp only [rscode, List.any_map, ite_eq_right_iff, Nat.one_ne_zero, imp_false, List.any_eq_true,
    not_exists, not_and, List.mem_range, Function.comp_apply, decide_eq_true_eq, not_not, hbyte]

/-- `check_syndrome` finds nothing in a word exactly when it is the codeword of its data. -/
theorem checkSyndrome_eq_zero_iff_encodeData (word : List UInt8) (hle : npar ≤ word.length)
    (hmax : word.length ≤ 255) :
    checkSyndrome (rscode.decodeData word) = 0 ↔
      word = Rscode.encodeData (word.take (word.length - npar)) := by
  rw [checkSyndrome_eq_zero_iff]
  have hmsg : (word.take (word.length - npar)).length = word.length - npar := by
    rw [List.length_take]
    omega
  constructor
  · intro hzero
    apply Rscode.eq_of_syndromeByte_eq_zero (by omega) (by omega) _ hzero
    have hsplit := List.take_append_drop (word.length - npar) word
    rw [Rscode.encodeData, Rscode.buildCodeword]
    nth_rewrite 1 [← hsplit]
    apply Rscode.differences_append_le
    · rw [List.length_drop]
      omega
    · rw [List.length_map, List.length_range]
  · intro heq j hj
    rw [heq, Rscode.syndromeByte_encodeData _ hj]

/-- The codewords of two messages of one length differ in more bytes than there are parity bytes,
and a word between them is not taken for either. -/
theorem checkSyndrome_detects (msg word : List UInt8) (hmsg : msg.length + npar ≤ 255)
    (hlen : word.length = msg.length + npar) :
    (checkSyndrome (rscode.decodeData word) = 0 ↔
      word = Rscode.encodeData (word.take msg.length)) ∧
    (word ≠ Rscode.encodeData msg → differences word (Rscode.encodeData msg) ≤ npar →
      checkSyndrome (rscode.decodeData word) = 1) ∧
    ∀ msg' : List UInt8, msg'.length = msg.length → msg' ≠ msg →
      npar < differences (Rscode.encodeData msg') (Rscode.encodeData msg) := by
  refine ⟨?_, ?_, ?_⟩
  · have hiff := checkSyndrome_eq_zero_iff_encodeData word (by omega) (by omega)
    rwa [hlen, Nat.add_sub_cancel] at hiff
  · intro hne hwrong
    have hnonzero : checkSyndrome (rscode.decodeData word) ≠ 0 := by
      intro h
      exact hne (Rscode.eq_of_syndromeByte_eq_zero hmsg hlen hwrong
        ((checkSyndrome_eq_zero_iff word).mp h))
    rw [checkSyndrome] at hnonzero ⊢
    split at hnonzero
    next h => rw [if_pos h]
    next => exact absurd rfl hnonzero
  · intro msg' hlen' hne
    by_contra hle
    have heq := Rscode.eq_of_syndromeByte_eq_zero hmsg
      ((Rscode.length_encodeData msg').trans (by rw [hlen'])) (Nat.le_of_not_lt hle)
      fun j hj => Rscode.syndromeByte_encodeData msg' hj
    exact hne (List.append_inj_left heq hlen')

/-- The codeword of one byte. -/
theorem checkSyndrome_detects_one :
    checkSyndrome (rscode.decodeData (Rscode.encodeData [1])) = 0 :=
  (checkSyndrome_detects [1] (Rscode.encodeData [1]) (by decide)
    (Rscode.length_encodeData [1])).1.mpr
      (congrArg Rscode.encodeData (List.take_left' rfl).symm)

/-! ## Correction -/

/-- The syndromes pass through the numbers unchanged. -/
theorem tabulate_decodeData (word : List UInt8) :
    (tabulate maxdeg fun j => ⟨UInt8.ofNat ((rscode.decodeData word).getD j 0)⟩) =
      Rscode.decodeData word := by
  rw [Rscode.decodeData]
  congr 1
  funext j
  rw [rscode, List.getD_eq_getElem?_getD, List.getElem?_map]
  split
  next hj =>
    rw [List.getElem?_range hj, Option.map_some, Option.getD_some, UInt8.ofNat_toNat]
  next hj =>
    rw [List.getElem?_eq_none (by rw [List.length_range]; omega), Option.map_none, Option.getD_none]
    rfl

/-- The library corrects up to 54 wrong bytes of the codeword of every message. -/
theorem rscode_corrects {msg : List UInt8} (hmsg : msg.length ≤ dataSize) :
    rscode.Corrects 54 msg where
  systematic := ⟨_, by rw [List.length_map, List.length_range]; rfl, rfl⟩
  restores word hlen hwrong := by
    have hmsg' : msg.length + npar ≤ 255 := by
      simp only [dataSize, paritySize] at hmsg
      simp only [npar]
      omega
    have hcard := Rscode.card_wrongLocs_le (hlen.trans (Rscode.length_encodeData msg).symm)
    have hnpar : 2 * 54 ≤ npar := by decide
    rw [Ecc.restore]
    split
    next =>
      change (Rscode.correctErrorsErasures _ word []).1 = Rscode.encodeData msg
      rw [tabulate_decodeData]
      apply Rscode.correctErrorsErasures_of_syndromes
        (fun _ hj => Rscode.syndromeByte_encodeData msg hj)
        (hlen.trans (Rscode.length_encodeData msg).symm) (hlen.trans_le hmsg') List.nodup_nil
      · intro e he
        exact absurd he List.not_mem_nil
      · change differences word (Rscode.encodeData msg) ≤ 54 at hwrong
        rw [List.length_nil]
        omega
    next hsyn =>
      have hzero := (checkSyndrome_eq_zero_iff word).mp (Decidable.not_not.mp hsyn)
      exact Rscode.eq_of_syndromeByte_eq_zero hmsg' hlen (hwrong.trans (by decide)) hzero

/-! ## Files -/

open Encoder Decoder

theorem rscode_corrects_dataAt (input : List UInt8) (j : Nat) :
    rscode.Corrects 54 (dataAt input (j * dataSize)) :=
  rscode_corrects (Nat.le_trans (List.length_take_le ..) (dataLength_le ..))

/-- The decoder restores every file whose last block is not full, whatever the channel does to it,
as long as no codeword has more than 54 wrong bytes; a burst of 54 bytes for every full codeword
never puts more into one. -/
theorem decodeInput_rscode (input : List UInt8) (hlast : ¬ dataSize ∣ input.length)
    (hsize : encodedSize input.length < 2 ^ 31) :
    (∀ encoded : List UInt8, encoded.length = encodedSize input.length →
      (∀ j < blocks (encodedSize input.length),
        differences (codewordAt (deInterleave encoded) (j * blockSize))
          (output rscode input (j * dataSize)) ≤ 54) →
      decodeInput rscode encoded = input) ∧
    ∀ (encoded : List UInt8) (s b : Nat), encoded.length = encodedSize input.length →
      b ≤ 54 * (blocks (encodedSize input.length) - 1) →
      (∀ p, encoded[p]? ≠ (encodeInput rscode input)[p]? → s ≤ p ∧ p < s + b) →
      decodeInput rscode encoded = input := by
  have hecc : ∀ j < blocks (encodedSize input.length),
      rscode.Corrects 54 (dataAt input (j * dataSize)) :=
    fun j _ => rscode_corrects_dataAt input j
  refine ⟨fun encoded hlen hwrong => decodeInput_eq hlast hlen hecc hwrong, ?_⟩
  intro encoded s b hlen hb hburst
  apply decodeInput_eq hlast hlen hecc
  intro j hj
  exact differences_le_of_burst hlast hsize hecc hlen hb hburst hj

/-- A burst of 54 bytes in the file of an input of two blocks. -/
theorem burst_restored_twoBlocks :
    decodeInput rscode ((encodeInput rscode (List.replicate 147 5)).take 3 ++ List.replicate 54 9 ++
      (encodeInput rscode (List.replicate 147 5)).drop 57) = List.replicate 147 5 := by
  have hlen := List.length_replicate (n := 147) (a := (5 : UInt8))
  have hencoded : (encodeInput rscode (List.replicate 147 5)).length = 365 := by
    rw [length_encodeInput, hlen]
    decide
  have hburst := (burst_restored rscode (List.replicate 147 5) (by rw [hlen]; decide)
    (by rw [hlen]; decide) fun j _ => rscode_corrects_dataAt _ j).2.2.2
  apply (hburst _ 3 54 _ _ _).2
  · simp only [List.length_append, List.length_take, List.length_drop, List.length_replicate,
      hencoded]
    decide
  · rw [hlen]
    decide
  · intro p hne
    by_contra hp
    refine hne ?_
    rw [List.append_assoc]
    rcases Nat.lt_or_ge p 3 with hlt | hge
    · rw [List.getElem?_append_left (by rw [List.length_take, hencoded]; omega),
        List.getElem?_take_of_lt hlt]
    · have htake : ((encodeInput rscode (List.replicate 147 5)).take 3).length = 3 := by
        rw [List.length_take, hencoded]
        rfl
      rw [List.getElem?_append_right (by omega), htake,
        List.getElem?_append_right (by rw [List.length_replicate]; omega), List.getElem?_drop,
        List.length_replicate]
      congr 1
      omega

theorem rscode_corrects_intact (msg : List UInt8) (hmsg : msg.length ≤ dataSize) :
    rscode.Corrects 0 msg :=
  (rscode_corrects hmsg).mono (Nat.zero_le 54)

/-- Files of 147 bytes. -/
theorem roundTrip_iff_twoBlocks :
    (∀ input : List UInt8, input.length = 147 →
      decodeInput rscode (encodeInput rscode input) = input) ↔ ¬ dataSize ∣ 147 :=
  (roundTrip_iff rscode rscode_corrects_intact 147 (by decide) (by decide)).1

/-- The library leaves a block of zeros as it is. -/
theorem restore_replicate_zero (n : Nat) :
    rscode.restore (List.replicate n 0) = List.replicate n 0 := by
  rw [Ecc.restore]
  refine if_neg (not_not_intro ((checkSyndrome_eq_zero_iff _).mpr fun j hj => ?_))
  rw [Rscode.syndromeByte_eq _ hj, Rscode.wordPoly_replicate_zero, Polynomial.eval_zero]

/-- The last full block of a file is lost. -/
theorem roundTrip_loses_block :
    (∀ msg : List UInt8, msg.length ≤ dataSize → rscode.Corrects 0 msg) ∧
      encodedSize (List.replicate 146 (1 : UInt8)).length < 2 ^ 31 ∧
      decodeInput rscode (encodeInput rscode (List.replicate 146 1)) ≠ List.replicate 146 1 := by
  refine ⟨rscode_corrects_intact, ?_, ?_⟩
  · rw [List.length_replicate]
    decide
  · intro heq
    have hmem : (0 : UInt8) ∈ (rscode.restore (List.replicate blockSize 0)).take dataSize := by
      rw [restore_replicate_zero, List.take_replicate]
      exact List.mem_replicate.mpr ⟨Nat.succ_ne_zero _, rfl⟩
    have hone := eq_of_decodeInput_replicate rscode (by decide) (Nat.dvd_refl dataSize) heq hmem
    exact absurd hone (by decide)

/-- A wrong byte in the file of an input of two blocks. -/
theorem decodeInput_rscode_twoBlocks :
    decodeInput rscode ((encodeInput rscode (List.replicate 147 5)).set 3 1) =
      List.replicate 147 5 := by
  have hlen := List.length_replicate (n := 147) (a := (5 : UInt8))
  have hburst := (decodeInput_rscode (List.replicate 147 5) (by rw [hlen]; decide)
    (by rw [hlen]; decide)).2
  apply hburst _ 3 1
  · rw [List.length_set, length_encodeInput]
  · rw [hlen]
    decide
  · intro p hne
    have hp : p = 3 := by
      by_contra hp
      exact hne (List.getElem?_set_ne (Ne.symm hp))
    omega

end Codec
