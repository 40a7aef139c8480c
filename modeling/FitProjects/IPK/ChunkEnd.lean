import FitProjects.IPK.ChunkedTransfer
import FitProjects.Lib.Search

/-! # The end of a chunked transfer

`Client::read_content` and `Client::read_chunk_data` of `IPK/proj2`: the client looks for the zero
chunk as a pattern in what it has read, and reconstructs the content when it finds it. The pattern
also stands in the chunks of contents that are not `Clean`, and the second search does not see what
came with the header. -/

namespace ChunkedTransfer

variable {maxchunk : ℕ+} {content : Content} {piece bytes data : List UInt8}
  {reads : List (List UInt8)} {uninit : Nat → UInt8}

/-- `0\r\n\r\n` -/
def endMark : List UInt8 := [48, 13, 10, 13, 10]

/-- `read_content` of a chunked response, `data` being what came with the header, and
`read_chunk_data` after the reads of `async_read_until`. -/
def readContent (uninit : Nat → UInt8) (data : List UInt8) (reads : List (List UInt8)) :
    Option (Except String (List UInt8)) :=
  if (Search.find endMark data).isSome then some (reconstructChunks uninit data)
  else (Search.readUntil endMark [] reads).map fun response =>
    reconstructChunks uninit (data ++ response)

/-- What the client needs of a content: the end test is right on every prefix of the stream, and
the content arrives. -/
structure Complete (maxchunk : ℕ+) (content : Content) (uninit : Nat → UInt8)
    (data : List UInt8) (reads : List (List UInt8)) : Prop where
  test : ∀ p, p <+: (read maxchunk content).1.flatten →
    ((Search.find endMark p).isSome ↔ p = (read maxchunk content).1.flatten)
  received : readContent uninit data reads = some (.ok content.bytes)

/-! ## The pieces of a content -/

/-- The bytes in blocks of `maxchunk`, the last one may be shorter. -/
def blocks (maxchunk : ℕ+) (bytes : List UInt8) : List (List UInt8) :=
  if _ : bytes = [] then []
  else bytes.take maxchunk :: blocks maxchunk (bytes.drop maxchunk)
termination_by bytes.length
decreasing_by
  have hpos := maxchunk.pos
  have hlen := List.length_pos_iff.mpr ‹_›
  rw [List.length_drop]
  omega

theorem blocks_nil : blocks maxchunk [] = [] := by
  rw [blocks, dif_pos rfl]

/-- A full piece is a block. -/
theorem blocks_append (h : piece.length = maxchunk) :
    blocks maxchunk (piece ++ bytes) = piece :: blocks maxchunk bytes := by
  have hne : piece ++ bytes ≠ [] := by
    refine List.append_ne_nil_of_left_ne_nil (List.ne_nil_of_length_pos ?_) _
    rw [h]
    exact maxchunk.pos
  rw [blocks, dif_neg hne, ← h, List.take_left, List.drop_left]

theorem blocks_flatten_append {pieces : List (List UInt8)}
    (h : ∀ piece ∈ pieces, piece.length = maxchunk) (bytes : List UInt8) :
    blocks maxchunk (pieces.flatten ++ bytes) = pieces ++ blocks maxchunk bytes := by
  induction pieces with
  | nil => rfl
  | cons piece pieces ih =>
    rw [List.forall_mem_cons] at h
    rw [List.flatten_cons, List.append_assoc, blocks_append h.1, ih h.2, List.cons_append]

theorem blocks_short (hne : bytes ≠ []) (h : bytes.length ≤ maxchunk) :
    blocks maxchunk bytes = [bytes] := by
  rw [blocks, dif_neg hne, List.take_of_length_le h, List.drop_of_length_le h, blocks_nil]

theorem sendList_eq (buffer : List UInt8) :
    sendList maxchunk buffer = ((blocks maxchunk buffer).map chunk, []) := by
  induction buffer using blocks.induct maxchunk with
  | case1 => rw [sendList, dif_pos rfl, blocks_nil, List.map_nil]
  | case2 buffer hne ih =>
    rw [sendList, dif_neg hne, blocks, dif_neg hne, sendChunk_eq, List.map_cons]
    dsimp only
    rw [ih]

/-- The content is sent in its blocks. -/
theorem read_eq (maxchunk : ℕ+) (content : Content) :
    (read maxchunk content).1 = (blocks maxchunk content.bytes).map chunk ++ [chunk []] := by
  have hzero : sendChunk maxchunk [] = (chunk [], []) := by
    rw [sendChunk_eq, List.take_nil, List.drop_nil]
  cases content with
  | file bytes =>
    obtain ⟨pieces, hchunks, hfull, hflat, hrest⟩ := @sendFile_spec maxchunk [] bytes maxchunk.pos
    rw [List.nil_append] at hflat
    have hblocks := blocks_flatten_append hfull (sendFile maxchunk [] bytes).2
    rw [hflat] at hblocks
    generalize hsent : sendFile maxchunk [] bytes = sent at hchunks hflat hrest hblocks
    simp only [read, hsent, Content.bytes]
    by_cases hempty : sent.2 = []
    · rw [if_pos hempty, hempty, hzero, hchunks, hblocks, hempty, blocks_nil, List.append_nil]
    · have hlast : sendChunk maxchunk sent.2 = (chunk sent.2, []) := by
        rw [sendChunk_eq, List.take_of_length_le hrest.le, List.drop_of_length_le hrest.le]
      rw [if_neg hempty, hlast, hzero, hchunks, hblocks, blocks_short hempty hrest.le]
      simp
  | list bytes => rw [read, sendList_eq, hzero, Content.bytes]

/-! ## Where the mark stands -/

/-- A block in whose chunk the mark does not stand. -/
structure Clean (piece : List UInt8) : Prop where
  inside : ¬ endMark <:+: piece
  atEnd : ¬ [48, 13, 10] <:+ piece
  atStart : ¬ (16 ∣ piece.length ∧ [13, 10] <+: piece)

theorem not_mem_print : 13 ∉ Hex.print n :=
  fun h => absurd (Hex.isDigit_of_mem_print h) (by decide)

end ChunkedTransfer
