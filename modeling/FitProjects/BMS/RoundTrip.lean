import FitProjects.BMS.Codewords

/-! # Round trip and bursts

What reaches the output file of the decoder: the input when the last codeword is shorter than a
block, also after a burst of wrong bytes, and the data of a block of zeros at the end when it is
not. -/

namespace Codec

open Encoder Decoder

variable {ecc : Ecc} {input encoded : List UInt8} {size : Nat}

theorem bijOn_mapIndex (hlast : ¬ dataSize ∣ size) (hsize : encodedSize size < 2 ^ 31) :
    Set.BijOn (fun c : Nat × Nat => mapIndex size c.1 c.2)
      {c | c.1 < blocks (encodedSize size) ∧
        c.2 < Encoder.dataLength size (c.1 * dataSize) + paritySize}
      (Set.Iio (encodedSize size)) := by
  have hbij := Interleaver.bijOn_place (w := size / dataSize)
    (Nat.le_of_lt (lastBlockSize_lt size))
  simp only [cell_iff hlast, ← encodedSize_eq hlast] at hbij
  apply hbij.congr
  intro c hc
  exact (mapIndex_eq hlast hsize ((cell_iff hlast c.1 c.2).mpr hc)).symm

section
variable (hlast : ¬ dataSize ∣ input.length) (hsize : encodedSize input.length < 2 ^ 31)
  (hecc : ∀ j < blocks (encodedSize input.length), ecc.Corrects t (dataAt input (j * dataSize)))
include hlast hsize hecc

theorem codewordAt_deInterleave (hj : j < blocks (encodedSize input.length)) :
    codewordAt (deInterleave (encodeInput ecc input)) (j * blockSize) =
      output ecc input (j * dataSize) := by
  apply List.ext_getElem?
  intro i
  by_contra hne
  obtain ⟨-, hbyte⟩ := ne_of_codewordAt_ne hlast hsize (length_encodeInput ecc input) hecc hj hne
  exact hbyte rfl

theorem decodeInput_encodeInput : decodeInput ecc (encodeInput ecc input) = input := by
  apply decodeInput_eq hlast (length_encodeInput ecc input) hecc
  intro j hj
  rw [codewordAt_deInterleave hlast hsize hecc hj, differences_self]
  exact Nat.zero_le t

/-- A burst hits at most `t` bytes of a codeword when it is not longer than `t` rows of the last
part of the table. -/
theorem differences_le_of_burst (hlen : encoded.length = encodedSize input.length)
    (hb : b ≤ t * (blocks (encodedSize input.length) - 1))
    (hburst : ∀ p, encoded[p]? ≠ (encodeInput ecc input)[p]? → s ≤ p ∧ p < s + b)
    (hj : j < blocks (encodedSize input.length)) :
    differences (codewordAt (deInterleave encoded) (j * blockSize))
      (output ecc input (j * dataSize)) ≤ t := by
  rw [blocks_encodedSize hlast, Nat.add_sub_cancel] at hb
  have hcard := Interleaver.card_window_le (L := Encoder.lastBlockSize input.length) hb
    (Encoder.dataLength input.length (j * dataSize) + paritySize) j s
  refine Nat.le_trans (differences_le _ fun i hne => ?_) hcard
  obtain ⟨hi, hbyte⟩ := ne_of_codewordAt_ne hlast hsize hlen hecc hj hne
  have hwindow := hburst _ hbyte
  rw [mapIndex_eq hlast hsize ((cell_iff hlast j i).mpr ⟨hj, hi⟩)] at hwindow
  exact Finset.mem_filter.mpr ⟨Finset.mem_range.mpr hi, hwindow⟩

end

/-- The interleaver spreads a burst of at most `54 * (blocks - 1)` bytes so that no codeword has
more than 54 wrong bytes, and the decoder restores the input. -/
theorem burst_restored (ecc : Ecc) (input : List UInt8) (hlast : ¬ dataSize ∣ input.length)
    (hsize : encodedSize input.length < 2 ^ 31)
    (hecc : ∀ j < blocks (encodedSize input.length),
      ecc.Corrects 54 (dataAt input (j * dataSize))) :
    Set.BijOn (fun c : Nat × Nat => mapIndex input.length c.1 c.2)
      {c | c.1 < blocks (encodedSize input.length) ∧
        c.2 < Encoder.dataLength input.length (c.1 * dataSize) + paritySize}
      (Set.Iio (encodedSize input.length)) ∧
    (∀ encoded : List UInt8, encoded.length = encodedSize input.length →
      ∀ j < blocks (encodedSize input.length),
        ∀ i < Encoder.dataLength input.length (j * dataSize) + paritySize,
          (deInterleave encoded)[i + j * blockSize]? = encoded[mapIndex input.length j i]?) ∧
    (∀ j < blocks (encodedSize input.length),
      codewordAt (deInterleave (encodeInput ecc input)) (j * blockSize) =
        output ecc input (j * dataSize)) ∧
    ∀ (encoded : List UInt8) (s b : Nat), encoded.length = encodedSize input.length →
      b ≤ 54 * (blocks (encodedSize input.length) - 1) →
      (∀ p, encoded[p]? ≠ (encodeInput ecc input)[p]? → s ≤ p ∧ p < s + b) →
      (∀ j < blocks (encodedSize input.length),
        differences (codewordAt (deInterleave encoded) (j * blockSize))
          (output ecc input (j * dataSize)) ≤ 54) ∧
      decodeInput ecc encoded = input := by
  refine ⟨bijOn_mapIndex hlast hsize, ?_, ?_, ?_⟩
  · intro encoded hlen j hj i hi
    exact getElem?_deInterleave_mapIndex hlast hsize hlen hj hi
  · intro j hj
    exact codewordAt_deInterleave hlast hsize hecc hj
  · intro encoded s b hlen hb hburst
    have hwrong : ∀ j < blocks (encodedSize input.length),
        differences (codewordAt (deInterleave encoded) (j * blockSize))
          (output ecc input (j * dataSize)) ≤ 54 :=
      fun j hj => differences_le_of_burst hlast hsize hecc hlen hb hburst hj
    exact ⟨hwrong, decodeInput_eq hlast hlen hecc hwrong⟩

/-! ## A last codeword of a full block -/

theorem blocks_mul (k : Nat) : blocks (k * blockSize) = k := by
  have hpos : 0 < blockSize := Nat.zero_lt_succ _
  rw [blocks, Nat.mul_comm, Nat.mul_add_div hpos,
    Nat.div_eq_of_lt (Nat.sub_one_lt_of_lt hpos), Nat.add_zero]

/-- The last block is not read: its length is computed as zero. -/
theorem drop_deInterleave (hlen : encoded.length = (k + 1) * blockSize) :
    (deInterleave encoded).drop (k * blockSize) = List.replicate blockSize 0 := by
  have hblocks : blocks encoded.length = k + 1 := by rw [hlen, blocks_mul]
  have hzeros : (List.replicate encoded.length (0 : UInt8)).drop (k * blockSize) =
      List.replicate blockSize 0 := by
    rw [List.drop_replicate, hlen, Nat.succ_mul, Nat.add_sub_cancel_left]
  rw [← hzeros]
  apply List.ext_getElem?
  intro p
  rw [List.getElem?_drop, List.getElem?_drop]
  apply getElem?_deInterleaveBlocks_of_ne
  intro j hj i hi
  rw [hblocks] at hj
  rcases Nat.lt_succ_iff_lt_or_eq.mp hj with hlt | rfl
  · have hi := Nat.lt_of_lt_of_le hi (wordLength_le (hblocks ▸ hj))
    have hle : (j + 1) * blockSize ≤ k * blockSize := Nat.mul_le_mul_right _ hlt
    rw [Nat.succ_mul] at hle
    omega
  · have hzero : wordLength encoded.length j = 0 := by
      have hword := wordLength_last encoded.length
      rwa [hblocks, Nat.add_sub_cancel, Decoder.lastBlockSize, hlen, Nat.mul_mod_left,
        ← hlen] at hword
    exact absurd (hzero ▸ hi) (Nat.not_lt_zero i)

/-- One turn of the decoder over full blocks. -/
theorem decodeLoop_block (ecc : Ecc) (hlen : encoded.length = (k + 1) * blockSize) (hj : j ≤ k) :
    decodeLoop ecc (deInterleave encoded) (j * blockSize) =
      (ecc.restore (((deInterleave encoded).drop (j * blockSize)).take blockSize)).take dataSize ++
        decodeLoop ecc (deInterleave encoded) ((j + 1) * blockSize) := by
  have hlt : j * blockSize < (deInterleave encoded).length := by
    rw [length_deInterleave, hlen]
    exact Nat.mul_lt_mul_of_pos_right (Nat.lt_succ_of_le hj) (Nat.zero_lt_succ _)
  have hlength : blockLength ((k + 1) * blockSize) (j * blockSize) = blockSize := by
    have hle : (j + 1) * blockSize ≤ (k + 1) * blockSize :=
      Nat.mul_le_mul_right _ (Nat.succ_le_succ hj)
    rw [Nat.succ_mul] at hle
    rw [blockLength]
    split
    · omega
    · rfl
  have hwrite : writeSize ((k + 1) * blockSize) (j * blockSize) = dataSize := by
    rw [writeSize, hlength]
    split
    · rfl
    · rfl
  rw [decodeLoop, if_pos hlt, codewordAt, length_deInterleave, hlen, hlength, hwrite,
    ← Nat.succ_mul]

/-- What the decoder writes ends with the data of a block of zeros. -/
theorem zeros_suffix_decodeLoop (ecc : Ecc) (hlen : encoded.length = (k + 1) * blockSize)
    (hj : j ≤ k) :
    (ecc.restore (List.replicate blockSize 0)).take dataSize <:+
      decodeLoop ecc (deInterleave encoded) (j * blockSize) := by
  induction hk : k - j generalizing j with
  | zero =>
    obtain rfl : j = k := by omega
    have hend : ¬ (j + 1) * blockSize < (deInterleave encoded).length := by
      rw [length_deInterleave, hlen]
      exact Nat.lt_irrefl _
    rw [decodeLoop_block ecc hlen hj, drop_deInterleave hlen,
      List.take_of_length_le (Nat.le_of_eq List.length_replicate), decodeLoop, if_neg hend,
      List.append_nil]
  | succ d ih =>
    rw [decodeLoop_block ecc hlen hj]
    exact List.suffix_append_of_suffix (ih (by omega) (by omega))

theorem zeros_suffix_decodeInput (ecc : Ecc) (hpos : 1 ≤ input.length)
    (hdvd : dataSize ∣ input.length) :
    (ecc.restore (List.replicate blockSize 0)).take dataSize <:+
      decodeInput ecc (encodeInput ecc input) := by
  obtain ⟨k, hk⟩ : ∃ k, input.length = (k + 1) * dataSize := by
    obtain ⟨k, hk⟩ := hdvd
    cases k with
    | zero => exact absurd hk (Nat.ne_of_gt hpos)
    | succ k => exact ⟨k, hk.trans (Nat.mul_comm ..)⟩
  have hlen : (encodeInput ecc input).length = (k + 1) * blockSize := by
    have hdata : 0 < dataSize := Nat.zero_lt_succ _
    rw [length_encodeInput, encodedSize, hk, Nat.mul_mod_left, if_neg (fun h => h rfl),
      Nat.mul_div_cancel _ hdata]
  have hsuffix := zeros_suffix_decodeLoop ecc hlen (Nat.zero_le k)
  rwa [Nat.zero_mul] at hsuffix

/-- An input of equal bytes is written only if the library makes these bytes of a block of
zeros. -/
theorem eq_of_decodeInput_replicate (ecc : Ecc) (hpos : 1 ≤ size) (hdvd : dataSize ∣ size)
    (h : decodeInput ecc (encodeInput ecc (List.replicate size b)) = List.replicate size b)
    (hmem : c ∈ (ecc.restore (List.replicate blockSize 0)).take dataSize) : c = b := by
  have hlen := List.length_replicate (n := size) (a := b)
  have hsuffix := zeros_suffix_decodeInput ecc (by rwa [hlen]) (by rwa [hlen])
  rw [h] at hsuffix
  exact List.eq_of_mem_replicate (hsuffix.subset hmem)

/-- The round trip of every file of a length is the identity if and only if the length is not a
multiple of the size of the data of a block. For a multiple it fails for every file that does not
end with the data of a block of zeros. -/
theorem roundTrip_iff (ecc : Ecc)
    (hecc : ∀ msg : List UInt8, msg.length ≤ dataSize → ecc.Corrects 0 msg) (size : Nat)
    (hpos : 1 ≤ size) (hsize : encodedSize size < 2 ^ 31) :
    ((∀ input : List UInt8, input.length = size →
      decodeInput ecc (encodeInput ecc input) = input) ↔ ¬ dataSize ∣ size) ∧
    (dataSize ∣ size → ∀ input : List UInt8, input.length = size →
      ¬ (ecc.restore (List.replicate blockSize 0)).take dataSize <:+ input →
      decodeInput ecc (encodeInput ecc input) ≠ input) := by
  refine ⟨⟨?_, ?_⟩, ?_⟩
  · intro h hdvd
    obtain ⟨c, hmem⟩ : ∃ c, c ∈ (ecc.restore (List.replicate blockSize 0)).take dataSize := by
      apply List.exists_mem_of_length_pos
      rw [List.length_take, Ecc.length_restore, List.length_replicate]
      exact Nat.zero_lt_succ _
    -- two inputs with different last bytes, written with the same last bytes
    have hsame (b : UInt8) : c = b :=
      eq_of_decodeInput_replicate ecc hpos hdvd (h _ List.length_replicate) hmem
    have hzero := hsame 0
    have hone := hsame 1
    exact absurd (hzero.symm.trans hone) (by decide)
  · rintro hlast input rfl
    apply decodeInput_encodeInput hlast hsize
    intro j _
    exact hecc _ (Nat.le_trans (List.length_take_le ..) (dataLength_le ..))
  · rintro hdvd input rfl hsuffix heq
    exact hsuffix (heq ▸ zeros_suffix_decodeInput ecc hpos hdvd)

end Codec
