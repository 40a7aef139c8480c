import FitProjects.BMS.Encoder
import FitProjects.BMS.Decoder

/-! # The codewords of encoder and decoder

The index maps of encoder and decoder agree when the last codeword is shorter than a block, and
then the decoder restores the input as long as the library restores every codeword. -/

namespace Codec

open Encoder Decoder

variable {ecc : Ecc} {input encoded : List UInt8} {size : Nat}

/-! ## The sizes on both sides -/

theorem lastBlockSize_encodedSize (hlast : ¬ dataSize ∣ size) :
    Decoder.lastBlockSize (encodedSize size) = Encoder.lastBlockSize size := by
  rw [Decoder.lastBlockSize, encodedSize_eq hlast, Nat.mul_add_mod,
    Nat.mod_eq_of_lt (lastBlockSize_lt size)]

theorem wordLength_encodedSize (hlast : ¬ dataSize ∣ size) (hj : j < blocks (encodedSize size)) :
    wordLength (encodedSize size) j = Encoder.dataLength size (j * dataSize) + paritySize := by
  have hblocks := blocks_encodedSize hlast
  rcases Nat.lt_or_eq_of_le (Nat.le_sub_one_of_lt hj) with hlt | rfl
  · rw [wordLength_eq hlt]
    rw [hblocks] at hlt
    rw [dataLength_eq hlt, blockSize]
  · rw [wordLength_last, lastBlockSize_encodedSize hlast, hblocks, Nat.add_sub_cancel,
      dataLength_last, Encoder.lastBlockSize]

theorem map_encodedSize (hlast : ¬ dataSize ∣ size) (hsize : encodedSize size < 2 ^ 31)
    (hcell : Interleaver.Cell blockSize (size / dataSize) (Encoder.lastBlockSize size) j i) :
    Decoder.map (encodedSize size) j i = mapIndex size j i := by
  have hlt := mapIndex_lt hlast hsize hcell
  rw [mapIndex_eq hlast hsize hcell] at hlt ⊢
  -- the value after the correction of the index, in the range of an `int`
  have hint : Int.bmod (Interleaver.place (size / dataSize) (Encoder.lastBlockSize size) j i)
      (2 ^ 32) = Interleaver.place (size / dataSize) (Encoder.lastBlockSize size) j i :=
    Int.bmod_eq_of_le (by omega) (by omega)
  rw [Decoder.map, lastBlockSize_encodedSize hlast, blocks_encodedSize hlast]
  split
  · rw [Int.bmod_sub_bmod, ← hint]
    refine congrArg (Int.bmod · (2 ^ 32)) ?_
    rw [Interleaver.place]
    push_cast
    rw [Int.mul_add]
    omega
  · rw [← hint]
    refine congrArg (Int.bmod · (2 ^ 32)) ?_
    rw [Interleaver.place]
    push_cast
    rw [Int.mul_add]
    omega

/-- The decoder reads the bytes where the encoder writes them. -/
theorem getElem?_deInterleave_mapIndex (hlast : ¬ dataSize ∣ size)
    (hsize : encodedSize size < 2 ^ 31) (hlen : encoded.length = encodedSize size)
    (hj : j < blocks (encodedSize size))
    (hi : i < Encoder.dataLength size (j * dataSize) + paritySize) :
    (deInterleave encoded)[i + j * blockSize]? = encoded[mapIndex size j i]? := by
  have hcell := (cell_iff hlast j i).mpr ⟨hj, hi⟩
  rw [← wordLength_encodedSize hlast hj, ← hlen] at hi
  rw [← hlen] at hj
  rw [getElem?_deInterleave hj hi, hlen, map_encodedSize hlast hsize hcell, Int.toNat_natCast]
  have hlt : mapIndex size j i < encoded.length := hlen ▸ mapIndex_lt hlast hsize hcell
  rw [List.getD_eq_getElem?_getD, List.getElem?_eq_getElem hlt, Option.getD_some]

/-! ## The codewords of the decoder -/

theorem blockLength_encodedSize (hlast : ¬ dataSize ∣ size) (hj : j < blocks (encodedSize size)) :
    blockLength (encodedSize size) (j * blockSize) =
      Encoder.dataLength size (j * dataSize) + paritySize := by
  have hpos : 0 < Encoder.lastBlockSize size := Nat.add_pos_right _ (Nat.zero_lt_succ _)
  have hlt := lastBlockSize_lt size
  rw [blocks_encodedSize hlast] at hj
  rw [blockLength, encodedSize_eq hlast]
  rcases Nat.lt_or_eq_of_le (Nat.le_of_lt_succ hj) with hj | rfl
  · have hle : blockSize * (j + 1) ≤ blockSize * (size / dataSize) := Nat.mul_le_mul_left _ hj
    rw [Nat.mul_succ, Nat.mul_comm] at hle
    rw [if_neg (by omega), dataLength_eq hj, ← blockSize]
  · rw [Nat.mul_comm blockSize, if_pos (by omega), dataLength_last, ← Encoder.lastBlockSize,
      Nat.add_sub_cancel_left]

theorem writeSize_encodedSize (hlast : ¬ dataSize ∣ size) (hj : j < blocks (encodedSize size)) :
    writeSize (encodedSize size) (j * blockSize) = Encoder.dataLength size (j * dataSize) := by
  have hlength := blockLength_encodedSize hlast hj
  have hle := dataLength_le size (j * dataSize)
  rw [writeSize, hlength]
  simp only [dataSize, paritySize] at hle ⊢
  split
  · omega
  · rename_i hmore
    rw [blockLength, if_neg hmore] at hlength
    simp only [blockSize, dataSize, paritySize] at hlength
    omega

section
variable (hlast : ¬ dataSize ∣ input.length) (hsize : encodedSize input.length < 2 ^ 31)
  (hlen : encoded.length = encodedSize input.length)
  (hecc : ∀ j < blocks (encodedSize input.length), ecc.Corrects t (dataAt input (j * dataSize)))
include hlast hlen

theorem length_codewordAt (hj : j < blocks (encodedSize input.length)) :
    (codewordAt (deInterleave encoded) (j * blockSize)).length =
      Encoder.dataLength input.length (j * dataSize) + paritySize := by
  have hblock := blockLength_encodedSize hlast hj
  have hle : blockLength (encodedSize input.length) (j * blockSize) ≤
      encodedSize input.length - j * blockSize := by
    rw [blockLength]
    split
    · exact Nat.le_refl _
    · omega
  rw [codewordAt, List.length_take, List.length_drop, length_deInterleave, hlen]
  omega

include hecc

omit hlen in
theorem take_output (hj : j < blocks (encodedSize input.length)) :
    (output ecc input (j * dataSize)).take (Encoder.dataLength input.length (j * dataSize)) =
      dataAt input (j * dataSize) := by
  rw [← length_dataAt input (mul_dataSize_le hlast hj), output]
  exact (hecc j hj).take_encodeData

/-- One turn of the decoder. -/
theorem decodeLoop_codeword (hj : j < blocks (encodedSize input.length))
    (hrestore : ecc.restore (codewordAt (deInterleave encoded) (j * blockSize)) =
      output ecc input (j * dataSize)) :
    decodeLoop ecc (deInterleave encoded) (j * blockSize) =
      dataAt input (j * dataSize) ++ decodeLoop ecc (deInterleave encoded) (j * blockSize +
        (Encoder.dataLength input.length (j * dataSize) + paritySize)) := by
  have hlt : j * blockSize < (deInterleave encoded).length := by
    have hword : 0 < wordLength encoded.length j := by
      rw [hlen, wordLength_encodedSize hlast hj]
      exact Nat.add_pos_right _ (Nat.zero_lt_succ _)
    rw [length_deInterleave, ← Nat.zero_add (j * blockSize)]
    exact add_mul_lt (hlen ▸ hj) hword
  rw [decodeLoop, if_pos hlt, hrestore, length_deInterleave, hlen,
    writeSize_encodedSize hlast hj, take_output hlast hecc hj, blockLength_encodedSize hlast hj]

/-- From codeword `j` on the decoder writes the rest of the input. -/
theorem decodeLoop_eq (hrestore : ∀ j < blocks (encodedSize input.length),
      ecc.restore (codewordAt (deInterleave encoded) (j * blockSize)) =
        output ecc input (j * dataSize))
    (hj : j ≤ input.length / dataSize) :
    decodeLoop ecc (deInterleave encoded) (j * blockSize) = input.drop (j * dataSize) := by
  have hblocks := blocks_encodedSize hlast
  induction hk : input.length / dataSize - j generalizing j with
  | zero =>
    obtain rfl : j = input.length / dataSize := by omega
    have hlt : input.length / dataSize < blocks (encodedSize input.length) := by omega
    have hend : ¬ input.length / dataSize * blockSize +
        (Encoder.dataLength input.length (input.length / dataSize * dataSize) + paritySize) <
          (deInterleave encoded).length := by
      rw [length_deInterleave, hlen, encodedSize_eq hlast, dataLength_last, ← Encoder.lastBlockSize,
        Nat.mul_comm]
      exact Nat.lt_irrefl _
    rw [decodeLoop_codeword hlast hlen hecc hlt (hrestore _ hlt), decodeLoop, if_neg hend,
      List.append_nil, dataAt_last]
  | succ k ih =>
    have hlt : j < input.length / dataSize := by omega
    have hlt' : j < blocks (encodedSize input.length) := by omega
    rw [decodeLoop_codeword hlast hlen hecc hlt' (hrestore j hlt'), dataLength_eq hlt, ← blockSize,
      ← Nat.succ_mul, ih hlt (by omega), dataAt, dataLength_eq hlt, Nat.succ_mul,
      ← List.drop_drop, List.take_append_drop]

/-- The decoder writes the input when each codeword has at most `t` wrong bytes. -/
theorem decodeInput_eq (hwrong : ∀ j < blocks (encodedSize input.length),
      differences (codewordAt (deInterleave encoded) (j * blockSize))
        (output ecc input (j * dataSize)) ≤ t) :
    decodeInput ecc encoded = input := by
  have hrestore : ∀ j < blocks (encodedSize input.length),
      ecc.restore (codewordAt (deInterleave encoded) (j * blockSize)) =
        output ecc input (j * dataSize) := by
    intro j hj
    apply (hecc j hj).restores _ _ (hwrong j hj)
    rw [length_codewordAt hlast hlen hj, length_dataAt input (mul_dataSize_le hlast hj)]
  have hdecode := decodeLoop_eq hlast hlen hecc hrestore (Nat.zero_le _)
  rwa [Nat.zero_mul, Nat.zero_mul, List.drop_zero] at hdecode

include hsize in
/-- A wrong byte of a codeword is a wrong byte of the encoded file. -/
theorem ne_of_codewordAt_ne (hj : j < blocks (encodedSize input.length))
    (hne : (codewordAt (deInterleave encoded) (j * blockSize))[i]? ≠
      (output ecc input (j * dataSize))[i]?) :
    i < Encoder.dataLength input.length (j * dataSize) + paritySize ∧
      encoded[mapIndex input.length j i]? ≠
        (encodeInput ecc input)[mapIndex input.length j i]? := by
  have hlength := length_codewordAt hlast hlen hj
  have houtput := length_output hlast hecc hj
  have hi : i < Encoder.dataLength input.length (j * dataSize) + paritySize := by
    apply Nat.lt_of_not_le
    intro hge
    apply hne
    rw [List.getElem?_eq_none (by omega), List.getElem?_eq_none (by omega)]
  refine ⟨hi, ?_⟩
  have hcell := (cell_iff hlast j i).mpr ⟨hj, hi⟩
  rw [(encoded_encodeInput hlast hsize hecc).bytes j hj i hcell]
  rwa [codewordAt, length_deInterleave, hlen, blockLength_encodedSize hlast hj,
    List.getElem?_take_of_lt hi, List.getElem?_drop, Nat.add_comm,
    getElem?_deInterleave_mapIndex hlast hsize hlen hj hi] at hne

end

end Codec
