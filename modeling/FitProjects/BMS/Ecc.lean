import FitProjects.Lib.Interleaver

/-! # The codewords of `BMS/proj1`

The sizes of `common.hpp`, and the functions of `lib/ecc.h` that encoder and decoder call. What the
library computes is a parameter. -/

namespace Codec

def paritySize : Nat := 109

def dataSize : Nat := 255 - paritySize

def blockSize : Nat := dataSize + paritySize

/-- `std::ceil(size / (double)blockSize)`. The rounding of the quotient does not reach a whole
number for the sizes of memory. -/
def blocks (size : Nat) : Nat := (size + (blockSize - 1)) / blockSize

/-- The functions of the library. `decode_data` leaves the syndrome in `synBytes`, and
`correct_errors_erasures` changes the codeword in place. -/
structure Ecc where
  encodeData : List UInt8 → List UInt8
  decodeData : List UInt8 → List Nat
  correctErrorsErasures : List Nat → List UInt8 → List UInt8
  length_correctErrorsErasures : ∀ synBytes codeword,
    (correctErrorsErasures synBytes codeword).length = codeword.length

def checkSyndrome (synBytes : List Nat) : Nat := if synBytes.any (· ≠ 0) then 1 else 0

namespace Ecc

/-- What `decodeInput` does with a codeword. -/
def restore (ecc : Ecc) (codeword : List UInt8) : List UInt8 :=
  let synBytes := ecc.decodeData codeword
  if checkSyndrome synBytes ≠ 0 then ecc.correctErrorsErasures synBytes codeword else codeword

@[simp] theorem length_restore (ecc : Ecc) (codeword : List UInt8) :
    (ecc.restore codeword).length = codeword.length := by
  rw [restore]
  split
  · exact ecc.length_correctErrorsErasures _ _
  · rfl

/-- The codeword of a message is the message and its parity bytes, and it is restored when at most
`t` of its bytes are wrong. -/
structure Corrects (ecc : Ecc) (t : Nat) (msg : List UInt8) : Prop where
  systematic : ∃ parity : List UInt8,
    parity.length = paritySize ∧ ecc.encodeData msg = msg ++ parity
  restores : ∀ word : List UInt8, word.length = msg.length + paritySize →
    differences word (ecc.encodeData msg) ≤ t → ecc.restore word = ecc.encodeData msg

namespace Corrects

variable {ecc : Ecc} {msg : List UInt8}

theorem length_encodeData (h : ecc.Corrects t msg) :
    (ecc.encodeData msg).length = msg.length + paritySize := by
  obtain ⟨parity, hlen, heq⟩ := h.systematic
  rw [heq, List.length_append, hlen]

theorem take_encodeData (h : ecc.Corrects t msg) :
    (ecc.encodeData msg).take msg.length = msg := by
  obtain ⟨parity, -, heq⟩ := h.systematic
  rw [heq, List.take_left]

theorem mono (h : ecc.Corrects t msg) (hle : t' ≤ t) : ecc.Corrects t' msg :=
  ⟨h.systematic, fun word hlen hwrong => h.restores word hlen (Nat.le_trans hwrong hle)⟩

end Corrects

end Ecc

end Codec
