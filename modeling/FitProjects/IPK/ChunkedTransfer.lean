import FitProjects.Lib.Hex
import Mathlib.Data.PNat.Basic

/-! # Chunked transfer

The chunks that `Connection::read` of `IPK/proj2` sends without a delay, and
`Client::reconstruct_chunks`. A stream is the list of the bytes that are not read yet; the bytes of
`buffer` that `iss.read` does not write are given by `uninit`. -/

namespace ChunkedTransfer

/-! ## The connection -/

section
variable (maxchunk : ℕ+)

/-- `send_chunk`: the chunk and what is left in the buffer. -/
def sendChunk (buffer : List UInt8) : List UInt8 × List UInt8 :=
  let size := if maxchunk < buffer.length then (maxchunk : Nat) else buffer.length
  (Hex.print size ++ [13, 10] ++ buffer.take size ++ [13, 10], buffer.drop size)

/-- The bytes of one read of the file. -/
def readSize : Nat := if 512 < (maxchunk : Nat) then 512 else maxchunk

theorem readSize_spec : 0 < readSize maxchunk ∧ readSize maxchunk ≤ maxchunk := by
  have hpos := maxchunk.pos
  rw [readSize]
  split
  · omega
  · omega

variable {maxchunk} in
theorem length_sendChunk_lt {buffer : List UInt8} (h : buffer ≠ []) :
    (sendChunk maxchunk buffer).2.length < buffer.length := by
  have hpos := maxchunk.pos
  have hlen := List.length_pos_iff.mpr h
  rw [sendChunk, List.length_drop]
  split
  · omega
  · omega

/-- The `while` loop over the file: the chunks sent and the buffer. -/
def sendFile (buffer is : List UInt8) : List (List UInt8) × List UInt8 :=
  if _ : is.take (readSize maxchunk) = [] then ([], buffer)
  else
    let buffer := buffer ++ is.take (readSize maxchunk)
    if maxchunk ≤ buffer.length then
      let sent := sendChunk maxchunk buffer
      let rest := sendFile sent.2 (is.drop (readSize maxchunk))
      (sent.1 :: rest.1, rest.2)
    else sendFile buffer (is.drop (readSize maxchunk))
termination_by is.length
decreasing_by
  all_goals
    have hne : is ≠ [] := by
      rintro rfl
      exact absurd List.take_nil ‹_›
    have hlen := List.length_pos_iff.mpr hne
    have hsize := readSize_spec maxchunk
    rw [List.length_drop]
    omega

/-- The `while` loop over the list of a directory. -/
def sendList (buffer : List UInt8) : List (List UInt8) × List UInt8 :=
  if _ : buffer = [] then ([], buffer)
  else
    let sent := sendChunk maxchunk buffer
    let rest := sendList sent.2
    (sent.1 :: rest.1, rest.2)
termination_by buffer.length
decreasing_by exact length_sendChunk_lt ‹_›

/-- What `read` sends: a file or a list of a directory. -/
inductive Content
  | file (bytes : List UInt8)
  | list (bytes : List UInt8)

def Content.bytes : Content → List UInt8
  | file bytes => bytes
  | list bytes => bytes

/-- `read` for a chunk time of 0, from an empty buffer: the chunks sent and the buffer. -/
def read : Content → List (List UInt8) × List UInt8
  | .file bytes =>
    let sent := sendFile maxchunk [] bytes
    if sent.2 = [] then
      let last := sendChunk maxchunk sent.2
      (sent.1 ++ [last.1], last.2)
    else
      let rest := sendChunk maxchunk sent.2
      let last := sendChunk maxchunk rest.2
      (sent.1 ++ [rest.1, last.1], last.2)
  | .list bytes =>
    let sent := sendList maxchunk bytes
    let last := sendChunk maxchunk sent.2
    (sent.1 ++ [last.1], last.2)

end

/-! ## The client -/

/-- `std::getline`. -/
def getline : List UInt8 → Option (List UInt8 × List UInt8)
  | [] => none
  | c :: iss => some ((c :: iss).takeWhile (· ≠ 10), ((c :: iss).dropWhile (· ≠ 10)).drop 1)

/-- `iss.read(buffer, count)` on a fresh buffer: the buffer, and the rest of the stream. -/
def readBuffer (uninit : Nat → UInt8) (count : Nat) (iss : List UInt8) : List UInt8 × List UInt8 :=
  (iss.take count ++ ((List.range count).drop (iss.take count).length).map uninit, iss.drop count)

theorem length_getline_lt {iss line iss' : List UInt8} (h : getline iss = some (line, iss')) :
    iss'.length < iss.length := by
  cases iss with
  | nil => cases h
  | cons c iss =>
    obtain ⟨-, rfl⟩ := Prod.mk.inj (Option.some.inj h)
    have hle := (List.dropWhile_suffix (l := c :: iss) (· ≠ 10)).length_le
    rw [List.length_drop]
    rw [List.length_cons] at hle ⊢
    omega

/-- The loop of `reconstruct_chunks`. -/
def reconstruct (uninit : Nat → UInt8) (object iss : List UInt8) : Except String (List UInt8) :=
  match _h : getline iss with
  | none => .ok object
  | some (line, iss') =>
    match Hex.stoul line with
    | none => .error "stoul"
    | some n =>
      let count := n % 2 ^ 32
      if count = 0 then .ok object
      else
        let buffer := readBuffer uninit count iss'
        reconstruct uninit (object ++ buffer.1) (buffer.2.drop 2)
termination_by iss.length
decreasing_by
  have hlt := length_getline_lt _h
  rw [List.length_drop, readBuffer, List.length_drop]
  omega

/-- `reconstruct_chunks` on the data. -/
def reconstructChunks (uninit : Nat → UInt8) (data : List UInt8) : Except String (List UInt8) :=
  reconstruct uninit [] data

variable {maxchunk : ℕ+} {buffer is object rest piece : List UInt8} {uninit : Nat → UInt8}

/-! ## What is sent -/

/-- A chunk with its size. -/
def chunk (piece : List UInt8) : List UInt8 :=
  Hex.print piece.length ++ [13, 10] ++ piece ++ [13, 10]

theorem sendChunk_eq (buffer : List UInt8) :
    sendChunk maxchunk buffer = (chunk (buffer.take maxchunk), buffer.drop maxchunk) := by
  rw [sendChunk, chunk]
  split
  · rename_i hlt
    rw [List.length_take_of_le hlt.le]
  · rename_i hle
    rw [not_lt] at hle
    rw [List.take_of_length_le hle, List.take_length, List.drop_length, List.drop_of_length_le hle]

/-- The loop over the file sends full chunks and leaves less than a chunk. -/
theorem sendFile_spec (is : List UInt8) (hbuffer : buffer.length < maxchunk) :
    ∃ pieces : List (List UInt8), (sendFile maxchunk buffer is).1 = pieces.map chunk ∧
      (∀ piece ∈ pieces, piece.length = maxchunk) ∧
      pieces.flatten ++ (sendFile maxchunk buffer is).2 = buffer ++ is ∧
      (sendFile maxchunk buffer is).2.length < maxchunk := by
  have hsize := readSize_spec maxchunk
  induction buffer, is using sendFile.induct maxchunk with
  | case1 buffer is hempty =>
    have his : is = [] := by
      rw [List.take_eq_nil_iff] at hempty
      exact hempty.resolve_left (Nat.pos_iff_ne_zero.mp hsize.1)
    rw [sendFile, dif_pos hempty]
    exact ⟨[], rfl, by simp, by simp [his], hbuffer⟩
  | case2 buffer is hread buffer' hle sent ih =>
    have hsent : sent = (chunk (buffer'.take maxchunk), buffer'.drop maxchunk) :=
      sendChunk_eq buffer'
    have hsend : sendFile maxchunk buffer is =
        (sent.1 :: (sendFile maxchunk sent.2 (is.drop (readSize maxchunk))).1,
          (sendFile maxchunk sent.2 (is.drop (readSize maxchunk))).2) := by
      rw [sendFile, dif_neg hread]
      exact if_pos hle
    have hdrop : sent.2.length < maxchunk := by
      rw [hsent, List.length_drop, List.length_append, List.length_take]
      omega
    obtain ⟨pieces, hchunks, hfull, hflat, hrest⟩ := ih hdrop
    rw [hsend]
    refine ⟨buffer'.take maxchunk :: pieces, ?_, ?_, ?_, hrest⟩
    · rw [hchunks, hsent, List.map_cons]
    · rw [List.forall_mem_cons]
      exact ⟨List.length_take_of_le hle, hfull⟩
    · rw [List.flatten_cons, List.append_assoc, hflat, hsent, ← List.append_assoc,
        List.take_append_drop, List.append_assoc, List.take_append_drop]
  | case3 buffer is hread buffer' hlt ih =>
    have hsend : sendFile maxchunk buffer is =
        sendFile maxchunk buffer' (is.drop (readSize maxchunk)) := by
      rw [sendFile, dif_neg hread]
      exact if_neg hlt
    obtain ⟨pieces, hchunks, hfull, hflat, hrest⟩ := ih (not_le.mp hlt)
    rw [hsend]
    refine ⟨pieces, hchunks, hfull, ?_, hrest⟩
    rw [hflat, List.append_assoc, List.take_append_drop]

theorem getline_append {line : List UInt8} (h : 10 ∉ line) (rest : List UInt8) :
    getline (line ++ 10 :: rest) = some (line, rest) := by
  have hline : ∀ c ∈ line, (decide (c ≠ 10)) = true := by
    intro c hc
    have hne : c ≠ 10 := by
      rintro rfl
      exact h hc
    exact decide_eq_true hne
  have hget : ∀ iss : List UInt8, iss ≠ [] →
      getline iss = some (iss.takeWhile (· ≠ 10), (iss.dropWhile (· ≠ 10)).drop 1)
    | [], hne => absurd rfl hne
    | _ :: _, _ => rfl
  rw [hget _ (by simp), List.takeWhile_append_of_pos hline, List.dropWhile_append_of_pos hline,
    List.takeWhile_cons_of_neg (by simp), List.dropWhile_cons_of_neg (by simp), List.append_nil]
  rfl

end ChunkedTransfer
