import FitProjects.BMS.Ecc

/-! # The encoder

`Encoder::encodeInput` of `BMS/proj1`. `size` is the length of the input file. -/

namespace Codec.Encoder

/-! ## Indices -/

section
variable (size : Nat)

def lastBlockSize : Nat := size % dataSize + paritySize

def encodedSize : Nat :=
  let encodedSize := size / dataSize * blockSize
  if size % dataSize ≠ 0 then encodedSize + lastBlockSize size else encodedSize

/-- The length of the data of a codeword. Only the last turn of the loop changes the variable. -/
def dataLength (encodedLength : Nat) : Nat :=
  if size < dataSize + encodedLength then size - encodedLength else dataSize

/-- The `unsigned` index of a byte in the encoded vector. -/
def mapIndex (blocksCounter i : Nat) : Nat :=
  let mapIndex := (blocksCounter + i * blocks (encodedSize size)) % 2 ^ 32
  if lastBlockSize size < i then (mapIndex + 2 ^ 32 - (i - lastBlockSize size)) % 2 ^ 32
  else mapIndex

end

/-! ## The loop over the codewords -/

section
variable (ecc : Ecc) (input : List UInt8)

/-- The data that a turn of the loop encodes. -/
def dataAt (encodedLength : Nat) : List UInt8 :=
  (input.drop encodedLength).take (dataLength input.length encodedLength)

def output (encodedLength : Nat) : List UInt8 := ecc.encodeData (dataAt input encodedLength)

/-- One turn of the loop: the codeword is written to its places. -/
def encodeBlock (encodedLength blocksCounter : Nat) (encoded : List UInt8) : List UInt8 :=
  setEach (dataLength input.length encodedLength + paritySize)
    (mapIndex input.length blocksCounter) ((output ecc input encodedLength).getD · 0) encoded

/-- The `while` loop. -/
def encodeLoop (encodedLength blocksCounter : Nat) (encoded : List UInt8) : List UInt8 :=
  if encodedLength < input.length then
    encodeLoop (encodedLength + dataSize) (blocksCounter + 1)
      (encodeBlock ecc input encodedLength blocksCounter encoded)
  else encoded
termination_by input.length - encodedLength
decreasing_by
  have hpos : 0 < dataSize := Nat.zero_lt_succ _
  omega

def encodeInput : List UInt8 :=
  encodeLoop ecc input 0 0 (List.replicate (encodedSize input.length) 0)

end

variable {ecc : Ecc} {input : List UInt8} {size : Nat}

theorem length_encodeLoop (encodedLength blocksCounter : Nat) (encoded : List UInt8) :
    (encodeLoop ecc input encodedLength blocksCounter encoded).length = encoded.length := by
  fun_induction encodeLoop with
  | case1 encodedLength blocksCounter encoded _ ih => rw [ih, encodeBlock, length_setEach]
  | case2 => rfl

theorem length_encodeInput (ecc : Ecc) (input : List UInt8) :
    (encodeInput ecc input).length = encodedSize input.length := by
  rw [encodeInput, length_encodeLoop, List.length_replicate]

/-! ## Sizes when the last codeword is shorter -/

theorem encodedSize_eq (hlast : ¬ dataSize ∣ size) :
    encodedSize size = blockSize * (size / dataSize) + lastBlockSize size := by
  rw [Nat.dvd_iff_mod_eq_zero] at hlast
  rw [encodedSize, if_pos hlast, Nat.mul_comm]

theorem lastBlockSize_lt (size : Nat) : lastBlockSize size < blockSize :=
  Nat.add_lt_add_right (Nat.mod_lt size (Nat.zero_lt_succ _)) paritySize

theorem blocks_encodedSize (hlast : ¬ dataSize ∣ size) :
    blocks (encodedSize size) = size / dataSize + 1 := by
  have hlt := lastBlockSize_lt size
  have hpos : 0 < lastBlockSize size := Nat.add_pos_right _ (Nat.zero_lt_succ _)
  rw [encodedSize_eq hlast, blocks]
  simp only [blockSize, dataSize, paritySize] at hlt ⊢
  omega

theorem dataLength_le (size encodedLength : Nat) : dataLength size encodedLength ≤ dataSize := by
  rw [dataLength]
  split
  · omega
  · exact Nat.le_refl _

theorem dataLength_eq (hj : j < size / dataSize) : dataLength size (j * dataSize) = dataSize := by
  have hle : (j + 1) * dataSize ≤ size :=
    Nat.le_trans (Nat.mul_le_mul_right _ hj) (Nat.div_mul_le_self ..)
  rw [Nat.succ_mul] at hle
  exact if_neg (by omega)

theorem dataLength_last (size : Nat) :
    dataLength size (size / dataSize * dataSize) = size % dataSize := by
  have hmod := Nat.mod_lt size (y := dataSize) (Nat.zero_lt_succ _)
  have hsize := Nat.div_add_mod' size dataSize
  rw [dataLength, if_pos (by omega)]
  omega

/-- The cells of the table are the bytes of the codewords. -/
theorem cell_iff (hlast : ¬ dataSize ∣ size) (j i : Nat) :
    Interleaver.Cell blockSize (size / dataSize) (lastBlockSize size) j i ↔
      j < blocks (encodedSize size) ∧ i < dataLength size (j * dataSize) + paritySize := by
  have hlt := lastBlockSize_lt size
  rw [blocks_encodedSize hlast, Interleaver.Cell]
  rcases Nat.lt_trichotomy j (size / dataSize) with hj | rfl | hj
  · rw [dataLength_eq hj, ← blockSize]
    omega
  · rw [dataLength_last, ← lastBlockSize]
    omega
  · omega

/-- The encoder writes a byte to its place in the table. -/
theorem mapIndex_eq (hlast : ¬ dataSize ∣ size) (hsize : encodedSize size < 2 ^ 31)
    (hcell : Interleaver.Cell blockSize (size / dataSize) (lastBlockSize size) j i) :
    mapIndex size j i = Interleaver.place (size / dataSize) (lastBlockSize size) j i := by
  have hrows : i * (size / dataSize) ≤ 254 * (size / dataSize) :=
    Nat.mul_le_mul_right _ (Nat.le_of_lt_succ hcell.1)
  have hi : i < 255 := hcell.1
  have hj : j ≤ size / dataSize := by
    rcases hcell.2 with hj | ⟨hj, -⟩
    · exact Nat.le_of_lt hj
    · exact Nat.le_of_eq hj
  rw [encodedSize_eq hlast] at hsize
  rw [mapIndex, Interleaver.place, blocks_encodedSize hlast]
  simp only [Nat.mul_succ]
  have hblock : blockSize = 255 := rfl
  rw [hblock] at hsize
  generalize i * (size / dataSize) = row at hrows ⊢
  generalize lastBlockSize size = last at hsize ⊢
  split
  · omega
  · omega

theorem mapIndex_ne (hlast : ¬ dataSize ∣ size) (hsize : encodedSize size < 2 ^ 31)
    (hcell : Interleaver.Cell blockSize (size / dataSize) (lastBlockSize size) j i)
    (hcell' : Interleaver.Cell blockSize (size / dataSize) (lastBlockSize size) j' i')
    (hne : (j, i) ≠ (j', i')) : mapIndex size j i ≠ mapIndex size j' i' := by
  intro heq
  rw [mapIndex_eq hlast hsize hcell, mapIndex_eq hlast hsize hcell'] at heq
  obtain ⟨rfl, rfl⟩ := Interleaver.place_inj hcell hcell' heq
  exact hne rfl

theorem mapIndex_lt (hlast : ¬ dataSize ∣ size) (hsize : encodedSize size < 2 ^ 31)
    (hcell : Interleaver.Cell blockSize (size / dataSize) (lastBlockSize size) j i) :
    mapIndex size j i < encodedSize size := by
  rw [mapIndex_eq hlast hsize hcell, encodedSize_eq hlast]
  exact Interleaver.place_lt (Nat.le_of_lt (lastBlockSize_lt size)) hcell

theorem mul_dataSize_le (hlast : ¬ dataSize ∣ size) (hj : j < blocks (encodedSize size)) :
    j * dataSize ≤ size := by
  rw [blocks_encodedSize hlast] at hj
  exact Nat.le_trans (Nat.mul_le_mul_right _ (Nat.le_of_lt_succ hj)) (Nat.div_mul_le_self ..)

theorem length_dataAt (input : List UInt8) (h : encodedLength ≤ input.length) :
    (dataAt input encodedLength).length = dataLength input.length encodedLength := by
  rw [dataAt, List.length_take, List.length_drop, dataLength]
  split
  · omega
  · omega

/-- The data of the last codeword reaches to the end of the input. -/
theorem dataAt_last (input : List UInt8) :
    dataAt input (input.length / dataSize * dataSize) =
      input.drop (input.length / dataSize * dataSize) := by
  have hsize := Nat.div_add_mod' input.length dataSize
  rw [dataAt, dataLength_last]
  apply List.take_of_length_le
  rw [List.length_drop]
  omega

/-! ## The encoded vector -/

/-- The codewords before codeword `k` are in the encoded vector. -/
structure Encoded (ecc : Ecc) (input : List UInt8) (k : Nat) (encoded : List UInt8) : Prop where
  length : encoded.length = encodedSize input.length
  bytes : ∀ j < k, ∀ i,
    Interleaver.Cell blockSize (input.length / dataSize) (lastBlockSize input.length) j i →
      encoded[mapIndex input.length j i]? = (output ecc input (j * dataSize))[i]?

section
variable (hlast : ¬ dataSize ∣ input.length) (hsize : encodedSize input.length < 2 ^ 31)
  (hecc : ∀ j < blocks (encodedSize input.length), ecc.Corrects t (dataAt input (j * dataSize)))
include hlast hsize hecc

omit hsize in
theorem length_output (hk : k < blocks (encodedSize input.length)) :
    (output ecc input (k * dataSize)).length =
      dataLength input.length (k * dataSize) + paritySize := by
  rw [output, (hecc k hk).length_encodeData, length_dataAt input (mul_dataSize_le hlast hk)]

theorem Encoded.encodeBlock (hk : k < blocks (encodedSize input.length))
    (h : Encoded ecc input k encoded) :
    Encoded ecc input (k + 1) (encodeBlock ecc input (k * dataSize) k encoded) where
  length := by rw [Encoder.encodeBlock, length_setEach, h.length]
  bytes j hj i hcell := by
    have hcells : ∀ i < dataLength input.length (k * dataSize) + paritySize,
        Interleaver.Cell blockSize (input.length / dataSize) (lastBlockSize input.length) k i :=
      fun i hi => (cell_iff hlast k i).mpr ⟨hk, hi⟩
    rw [Encoder.encodeBlock]
    rcases Nat.lt_succ_iff_lt_or_eq.mp hj with hj | rfl
    · rw [getElem?_setEach_of_ne]
      · exact h.bytes j hj i hcell
      · intro i' hi'
        apply mapIndex_ne hlast hsize (hcells i' hi') hcell
        intro heq
        exact Nat.ne_of_gt hj (congrArg Prod.fst heq)
    · have hi := ((cell_iff hlast j i).mp hcell).2
      have hinj : Set.InjOn (mapIndex input.length j)
          (Set.Iio (dataLength input.length (j * dataSize) + paritySize)) := by
        intro i hi i' hi' heq
        by_contra hne
        apply mapIndex_ne hlast hsize (hcells i hi) (hcells i' hi') _ heq
        exact fun heq => hne (congrArg Prod.snd heq)
      have hlt : mapIndex input.length j i < encoded.length :=
        h.length ▸ mapIndex_lt hlast hsize hcell
      rw [getElem?_setEach hinj hi hlt]
      rw [← length_output hlast hecc hk] at hi
      rw [List.getD_eq_getElem?_getD, List.getElem?_eq_getElem hi, Option.getD_some]

theorem Encoded.encodeLoop (hk : k ≤ blocks (encodedSize input.length))
    (heq : encodedLength = k * dataSize) (h : Encoded ecc input k encoded) :
    Encoded ecc input (blocks (encodedSize input.length))
      (encodeLoop ecc input encodedLength k encoded) := by
  have hblocks := blocks_encodedSize hlast
  fun_induction Encoder.encodeLoop with
  | case1 encodedLength k encoded hlt ih =>
    subst heq
    have hk : k < blocks (encodedSize input.length) := by
      rw [hblocks]
      exact Nat.lt_succ_of_le ((Nat.le_div_iff_mul_le (Nat.zero_lt_succ _)).mpr (Nat.le_of_lt hlt))
    exact ih hk (Nat.succ_mul ..).symm (h.encodeBlock hlast hsize hecc hk)
  | case2 encodedLength k encoded hge =>
    subst heq
    have hk' : blocks (encodedSize input.length) ≤ k := by
      rw [hblocks]
      apply Nat.succ_le_of_lt
      apply Nat.lt_of_le_of_ne (Nat.div_le_of_le_mul (by rw [Nat.mul_comm]; omega))
      rintro rfl
      exact hge (Nat.lt_of_le_of_ne (Nat.div_mul_le_self ..)
        fun heq => hlast (Dvd.intro_left _ heq))
    rwa [← Nat.le_antisymm hk hk']

/-- Every byte of every codeword is in the encoded vector. -/
theorem encoded_encodeInput :
    Encoded ecc input (blocks (encodedSize input.length)) (encodeInput ecc input) := by
  apply Encoded.encodeLoop hlast hsize hecc (Nat.zero_le _) (Nat.zero_mul _).symm
  exact ⟨List.length_replicate, fun j hj => absurd hj (Nat.not_lt_zero j)⟩

end

end Codec.Encoder
