import FitProjects.BMS.Ecc

/-! # The decoder

`Decoder::deInterleave` and `Decoder::decodeInput` of `BMS/proj1`. `size` is the length of the
encoded file. -/

namespace Codec.Decoder

/-! ## Indices -/

section
variable (size : Nat)

def lastBlockSize : Nat := size % blockSize

/-- The length of the data of codeword `j`, a `size_t`. -/
def dataLength (j : Nat) : Nat :=
  if j = blocks size - 1 then (lastBlockSize size + 2 ^ 64 - paritySize) % 2 ^ 64 else dataSize

/-- The bound of the inner loop, `dataLength + paritySize`. -/
def wordLength (j : Nat) : Nat := (dataLength size j + paritySize) % 2 ^ 64

/-- The `int` index of a byte in the encoded file. -/
def map (j i : Nat) : Int :=
  let map : Int := Int.bmod (j + i * blocks size) (2 ^ 32)
  if lastBlockSize size < i then Int.bmod (map - (i - lastBlockSize size)) (2 ^ 32) else map

end

/-! ## The codewords in their order -/

section
variable (input : List UInt8)

/-- The inner loop of `deInterleave`. -/
def deInterleaveBlock (j : Nat) (deInterleaved : List UInt8) : List UInt8 :=
  setEach (wordLength input.length j) (· + j * blockSize)
    (fun i => input.getD (map input.length j i).toNat 0) deInterleaved

/-- The first `k` turns of the outer loop. -/
def deInterleaveBlocks (k : Nat) : List UInt8 :=
  (List.range k).foldl (fun deInterleaved j => deInterleaveBlock input j deInterleaved)
    (List.replicate input.length 0)

def deInterleave : List UInt8 := deInterleaveBlocks input (blocks input.length)

end

/-! ## Decoding -/

section
variable (size decoded : Nat)

/-- The length of a codeword. Only the last turn of the loop changes this and the next variable. -/
def blockLength : Nat := if size ≤ blockSize + decoded then size - decoded else blockSize

/-- The bytes of a codeword that are written, a `size_t`. -/
def writeSize : Nat :=
  if size ≤ blockSize + decoded then (blockLength size decoded + 2 ^ 64 - paritySize) % 2 ^ 64
  else dataSize

end

/-- The codeword from `decoded` on. -/
def codewordAt (deInterleaved : List UInt8) (decoded : Nat) : List UInt8 :=
  (deInterleaved.drop decoded).take (blockLength deInterleaved.length decoded)

/-- The `while` loop: what is written to the output file. A codeword is corrected in place, but no
later turn reads it. -/
def decodeLoop (ecc : Ecc) (deInterleaved : List UInt8) (decoded : Nat) : List UInt8 :=
  if decoded < deInterleaved.length then
    (ecc.restore (codewordAt deInterleaved decoded)).take
        (writeSize deInterleaved.length decoded) ++
      decodeLoop ecc deInterleaved (decoded + blockLength deInterleaved.length decoded)
  else []
termination_by deInterleaved.length - decoded
decreasing_by
  have hpos : 0 < blockSize := Nat.zero_lt_succ _
  rw [blockLength]
  split
  · omega
  · omega

def decodeInput (ecc : Ecc) (input : List UInt8) : List UInt8 :=
  decodeLoop ecc (deInterleave input) 0

/-! ## What `deInterleave` computes -/

variable {size : Nat} {input : List UInt8}

/-- The wrap of `dataLength` below zero is undone by the sum. -/
theorem wordLength_last (size : Nat) : wordLength size (blocks size - 1) = lastBlockSize size := by
  have hlt : lastBlockSize size < blockSize := Nat.mod_lt size (Nat.zero_lt_succ _)
  rw [wordLength, dataLength, if_pos rfl]
  simp only [blockSize, dataSize, paritySize] at hlt ⊢
  omega

theorem wordLength_eq (hj : j < blocks size - 1) : wordLength size j = blockSize := by
  rw [wordLength, dataLength, if_neg (Nat.ne_of_lt hj)]
  rfl

theorem wordLength_le (hj : j < blocks size) : wordLength size j ≤ blockSize := by
  rcases Nat.lt_or_eq_of_le (Nat.le_sub_one_of_lt hj) with hlt | rfl
  · exact Nat.le_of_eq (wordLength_eq hlt)
  · rw [wordLength_last]
    exact Nat.le_of_lt (Nat.mod_lt size (Nat.zero_lt_succ _))

/-- The codewords are inside the vector. -/
theorem add_mul_lt (hj : j < blocks size) (hi : i < wordLength size j) :
    i + j * blockSize < size := by
  rcases Nat.lt_or_eq_of_le (Nat.le_sub_one_of_lt hj) with hlt | rfl
  · rw [wordLength_eq hlt] at hi
    simp only [blocks, blockSize, dataSize, paritySize] at hi hlt ⊢
    omega
  · rw [wordLength_last] at hi
    simp only [blocks, lastBlockSize, blockSize, dataSize, paritySize] at hi ⊢
    omega

theorem deInterleaveBlocks_succ (input : List UInt8) (k : Nat) :
    deInterleaveBlocks input (k + 1) = deInterleaveBlock input k (deInterleaveBlocks input k) := by
  rw [deInterleaveBlocks, List.range_succ, List.foldl_append]
  rfl

theorem length_deInterleaveBlocks (input : List UInt8) (k : Nat) :
    (deInterleaveBlocks input k).length = input.length := by
  induction k with
  | zero => exact List.length_replicate
  | succ k ih => rw [deInterleaveBlocks_succ, deInterleaveBlock, length_setEach, ih]

theorem length_deInterleave (input : List UInt8) :
    (deInterleave input).length = input.length := length_deInterleaveBlocks input _

theorem getElem?_deInterleaveBlocks (hk : k ≤ blocks input.length) (hj : j < k)
    (hi : i < wordLength input.length j) :
    (deInterleaveBlocks input k)[i + j * blockSize]? =
      some (input.getD (map input.length j i).toNat 0) := by
  have hblock : blockSize = 255 := rfl
  induction k with
  | zero => exact absurd hj (Nat.not_lt_zero j)
  | succ k ih =>
    rw [deInterleaveBlocks_succ, deInterleaveBlock]
    rcases Nat.lt_succ_iff_lt_or_eq.mp hj with hlt | rfl
    · rw [getElem?_setEach_of_ne]
      · exact ih (Nat.le_of_succ_le hk) hlt
      · intro i' hi'
        have hle := wordLength_le (Nat.lt_of_lt_of_le hj hk)
        have hle' := wordLength_le hk
        rw [hblock] at hle hle' ⊢
        omega
    · have hlt : i + j * blockSize < (deInterleaveBlocks input j).length := by
        rw [length_deInterleaveBlocks]
        exact add_mul_lt hk hi
      have hinj : Set.InjOn (· + j * blockSize) (Set.Iio (wordLength input.length j)) :=
        fun _ _ _ _ heq => Nat.add_right_cancel heq
      exact getElem?_setEach hinj hi hlt

/-- A byte of a codeword. -/
theorem getElem?_deInterleave (hj : j < blocks input.length) (hi : i < wordLength input.length j) :
    (deInterleave input)[i + j * blockSize]? =
      some (input.getD (map input.length j i).toNat 0) :=
  getElem?_deInterleaveBlocks (Nat.le_refl _) hj hi

/-- A byte that is not in the part of a codeword that is read stays as it was set up. -/
theorem getElem?_deInterleaveBlocks_of_ne
    (h : ∀ j < k, ∀ i < wordLength input.length j, i + j * blockSize ≠ p) :
    (deInterleaveBlocks input k)[p]? = (List.replicate input.length 0)[p]? := by
  induction k with
  | zero => rfl
  | succ k ih =>
    rw [deInterleaveBlocks_succ, deInterleaveBlock,
      getElem?_setEach_of_ne (h k (Nat.lt_succ_self k))]
    exact ih fun j hj => h j (Nat.lt_succ_of_lt hj)

end Codec.Decoder
