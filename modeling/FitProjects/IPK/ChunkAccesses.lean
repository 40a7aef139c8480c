import FitProjects.IPK.ChunkedTransfer

/-! # The accesses of the chunk reconstruction

`Client::reconstruct_chunks` of `IPK/proj2` once more, with the buffer of every chunk as memory of
`count` bytes: a byte that was not read is `none`, and a read past the end of the buffer ends the
run. `alloc` tells for which sizes there is memory. -/

namespace ChunkedTransfer

/-- How `reconstruct_chunks` ends, with the bytes appended to `object`. -/
inductive Outcome
  | returned (object : List (Option UInt8))
  | stoul (object : List (Option UInt8))
  | badAlloc
  | overrun
  deriving DecidableEq

/-- `iss.read(buffer, count)`: the buffer and the rest of the stream, or nothing when a byte is
written behind the buffer. -/
def readInto (buffer : List (Option UInt8)) (count : Nat) (iss : List UInt8) :
    Option (List (Option UInt8) × List UInt8) :=
  let bytes := iss.take count
  if bytes.length ≤ buffer.length then
    some (bytes.map some ++ buffer.drop bytes.length, iss.drop count)
  else none

inductive Round
  | done (outcome : Outcome)
  | next (object : List (Option UInt8)) (iss : List UInt8)

/-- One round of the loop. -/
def round (alloc : Nat → Bool) (object : List (Option UInt8)) (iss : List UInt8) : Round :=
  match getline iss with
  | none => .done (.returned object)
  | some (line, iss) =>
    match Hex.stoul line with
    | none => .done (.stoul object)
    | some n =>
      let count := n % 2 ^ 32
      if count = 0 then .done (.returned object)
      else if !alloc count then .done .badAlloc
      else
        match readInto (List.replicate count none) count iss with
        | none => .done .overrun
        | some (buffer, iss) =>
          let object := object ++ buffer
          match readInto buffer 2 iss with
          | none => .done .overrun
          | some (_, iss) => .next object iss

/-- The first size line of a stream: the size and what follows the line. -/
def sizeLine (iss : List UInt8) : Option (Nat × List UInt8) :=
  (getline iss).bind fun (line, rest) => (Hex.stoul line).map fun n => (n % 2 ^ 32, rest)

/-- A size line of the data: the first line, and every line two bytes behind a chunk that is not
empty. -/
inductive SizeLine : List UInt8 → Nat → List UInt8 → Prop
  | first (h : sizeLine iss = some (count, rest)) : SizeLine iss count rest
  | behind (h : sizeLine iss = some (count, rest)) (hcount : count ≠ 0)
    (hnext : SizeLine (rest.drop (count + 2)) count' rest') : SizeLine iss count' rest'

variable {alloc : Nat → Bool} {object : List (Option UInt8)} {iss rest bytes : List UInt8}
  {count : Nat}

/-! ## One round -/

theorem round_of_none (alloc : Nat → Bool) (object : List (Option UInt8))
    (h : sizeLine iss = none) :
    round alloc object iss = .done (.returned object) ∨
      round alloc object iss = .done (.stoul object) := by
  rw [round]
  rw [sizeLine] at h
  cases hget : getline iss with
  | none => exact .inl rfl
  | some p =>
    rw [hget, Option.bind_some, Option.map_eq_none_iff] at h
    simp only [h]
    exact .inr trivial

theorem round_of_zero (h : sizeLine iss = some (0, rest)) :
    round alloc object iss = .done (.returned object) := by
  obtain ⟨⟨line, rest'⟩, hget, hsize⟩ := Option.bind_eq_some_iff.mp h
  obtain ⟨n, hstoul, heq⟩ := Option.map_eq_some_iff.mp hsize
  simp only [round, hget, hstoul, (Prod.mk.inj heq).1, if_true]

/-- The buffer of a chunk after the first read. -/
def chunkBuffer (count : Nat) (rest : List UInt8) : List (Option UInt8) :=
  (rest.take count).map some ++ List.replicate (count - rest.length) none

theorem length_chunkBuffer (count : Nat) (rest : List UInt8) :
    (chunkBuffer count rest).length = count := by
  rw [chunkBuffer, List.length_append, List.length_map, List.length_take, List.length_replicate]
  omega

theorem chunkBuffer_of_le (h : count ≤ rest.length) :
    chunkBuffer count rest = (rest.take count).map some := by
  rw [chunkBuffer, Nat.sub_eq_zero_of_le h, List.replicate_zero, List.append_nil]

/-- The first read of a chunk fits into the new buffer. -/
theorem readInto_new (count : Nat) (rest : List UInt8) :
    readInto (List.replicate count none) count rest =
      some (chunkBuffer count rest, rest.drop count) := by
  have hle : (rest.take count).length ≤ (List.replicate count (none : Option UInt8)).length := by
    rw [List.length_take, List.length_replicate]
    exact Nat.min_le_left ..
  have hrest : count - (rest.take count).length = count - rest.length := by
    rw [List.length_take]
    omega
  rw [readInto, if_pos hle, List.drop_replicate, hrest, chunkBuffer]

/-- The read of the line end leaves a buffer of one byte if two bytes are there. -/
theorem readInto_lineEnd (hcount : count ≠ 0) (rest : List UInt8) :
    (count = 1 ∧ 3 ≤ rest.length ∧
        readInto (chunkBuffer count rest) 2 (rest.drop count) = none) ∨
      ¬ (count = 1 ∧ 3 ≤ rest.length) ∧ ∃ buffer,
        readInto (chunkBuffer count rest) 2 (rest.drop count) =
          some (buffer, rest.drop (count + 2)) := by
  have hlen : ((rest.drop count).take 2).length ≤ (chunkBuffer count rest).length ↔
      ¬ (count = 1 ∧ 3 ≤ rest.length) := by
    rw [length_chunkBuffer, List.length_take, List.length_drop]
    omega
  by_cases hover : count = 1 ∧ 3 ≤ rest.length
  · refine .inl ⟨hover.1, hover.2, ?_⟩
    rw [readInto, if_neg (mt hlen.mp (not_not.mpr hover))]
  · refine .inr ⟨hover, ?_⟩
    rw [readInto, if_pos (hlen.mpr hover), List.drop_drop]
    exact ⟨_, rfl⟩

/-- One round for a chunk that is not empty. -/
theorem round_of_pos (alloc : Nat → Bool) (object : List (Option UInt8))
    (h : sizeLine iss = some (count, rest)) (hcount : count ≠ 0) :
    round alloc object iss =
      if !alloc count then .done .badAlloc
      else if count = 1 ∧ 3 ≤ rest.length then .done .overrun
      else .next (object ++ chunkBuffer count rest) (rest.drop (count + 2)) := by
  obtain ⟨⟨line, rest'⟩, hget, hsize⟩ := Option.bind_eq_some_iff.mp h
  obtain ⟨n, hstoul, heq⟩ := Option.map_eq_some_iff.mp hsize
  obtain ⟨hn, rfl⟩ := Prod.mk.inj heq
  simp only [round, hget, hstoul, hn, if_neg hcount, readInto_new]
  rcases readInto_lineEnd hcount rest' with ⟨hone, hlen, hread⟩ | ⟨hfits, buffer, hread⟩
  · simp only [hread, if_pos (And.intro hone hlen)]
  · simp only [hread, if_neg hfits]

theorem length_sizeLine_lt (h : sizeLine iss = some (count, rest)) : rest.length < iss.length := by
  obtain ⟨⟨line, rest'⟩, hget, hsize⟩ := Option.bind_eq_some_iff.mp h
  obtain ⟨n, -, heq⟩ := Option.map_eq_some_iff.mp hsize
  obtain ⟨-, rfl⟩ := Prod.mk.inj heq
  exact length_getline_lt hget

theorem length_round_lt (h : round alloc object iss = .next object' iss') :
    iss'.length < iss.length := by
  cases hsize : sizeLine iss with
  | none =>
    rcases round_of_none alloc object hsize with hdone | hdone
    · rw [hdone] at h
      cases h
    · rw [hdone] at h
      cases h
  | some p =>
    obtain ⟨count, rest⟩ := p
    have hlt := length_sizeLine_lt hsize
    by_cases hcount : count = 0
    · rw [round_of_zero (hcount ▸ hsize)] at h
      cases h
    · rw [round_of_pos alloc object hsize hcount] at h
      split_ifs at h
      obtain ⟨-, rfl⟩ := Round.next.inj h
      rw [List.length_drop]
      omega

/-- The loop of `reconstruct_chunks`. -/
def accesses (alloc : Nat → Bool) (object : List (Option UInt8)) (iss : List UInt8) : Outcome :=
  match _h : round alloc object iss with
  | .done outcome => outcome
  | .next object iss => accesses alloc object iss
termination_by iss.length
decreasing_by exact length_round_lt _h

theorem accesses_of_done (h : round alloc object iss = .done outcome) :
    accesses alloc object iss = outcome := by
  rw [accesses]
  split
  · rename_i hdone
    exact Round.done.inj (hdone.symm.trans h)
  · rename_i hnext
    rw [h] at hnext
    cases hnext

theorem accesses_of_next (h : round alloc object iss = .next object' iss') :
    accesses alloc object iss = accesses alloc object' iss' := by
  rw [accesses]
  split
  · rename_i hdone
    rw [h] at hdone
    cases hdone
  · rename_i hnext
    obtain ⟨rfl, rfl⟩ := Round.next.inj (hnext.symm.trans h)
    rfl

/-- `reconstruct_chunks` on the data. -/
def reconstructAccesses (alloc : Nat → Bool) (data : List UInt8) : Outcome := accesses alloc [] data

/-! ## Runs -/

/-- There is memory for the chunk, all of it is there, and a chunk of one byte is not followed by
two more bytes. -/
structure ChunkFits (alloc : Nat → Bool) (count : Nat) (rest : List UInt8) : Prop where
  alloc : alloc count = true
  complete : count ≤ rest.length
  room : count = 1 → rest.length ≤ 2

/-- The run ends normally or with the exception of `stoul`, no read leaves its buffer, and all bytes
appended were read. -/
def Robust (outcome : Outcome) : Prop :=
  ∃ bytes : List UInt8, outcome = .returned (bytes.map some) ∨ outcome = .stoul (bytes.map some)

/-- A byte that was not read stays in the object. -/
theorem not_robust_of_mem (hobject : none ∈ object) (hrest : sizeLine iss = none) :
    ¬ Robust (accesses alloc object iss) := by
  rintro ⟨bytes, hbytes⟩
  rcases round_of_none alloc object hrest with hdone | hdone
  all_goals
    rw [accesses_of_done hdone] at hbytes
    simp only [Outcome.returned.injEq, Outcome.stoul.injEq, reduceCtorEq, or_false,
      false_or] at hbytes
    simp [hbytes] at hobject

theorem SizeLine.cases_of_some (hsize : sizeLine iss = some (count, rest))
    (h : SizeLine iss count' rest') :
    (count' = count ∧ rest' = rest) ∨
      count ≠ 0 ∧ SizeLine (rest.drop (count + 2)) count' rest' := by
  cases h with
  | first h =>
    obtain ⟨rfl, rfl⟩ := Prod.mk.inj (Option.some.inj (hsize.symm.trans h))
    exact .inl ⟨rfl, rfl⟩
  | behind h hcount hnext =>
    obtain ⟨rfl, rfl⟩ := Prod.mk.inj (Option.some.inj (hsize.symm.trans h))
    exact .inr ⟨hcount, hnext⟩

theorem not_sizeLine_of_none (hsize : sizeLine iss = none) (count : Nat) (rest : List UInt8) :
    ¬ SizeLine iss count rest := by
  intro h
  cases h with
  | first h => exact absurd (hsize.symm.trans h) (by simp)
  | behind h => exact absurd (hsize.symm.trans h) (by simp)

/-- A chunk that fits is appended. -/
theorem accesses_of_chunkFits (hsize : sizeLine iss = some (count, rest)) (hcount : count ≠ 0)
    (hfits : ChunkFits alloc count rest) (bytes : List UInt8) :
    accesses alloc (bytes.map some) iss =
      accesses alloc ((bytes ++ rest.take count).map some) (rest.drop (count + 2)) := by
  have hround := round_of_pos alloc (bytes.map some) hsize hcount
  have hroom : ¬ (count = 1 ∧ 3 ≤ rest.length) := by
    rintro ⟨hone, hlen⟩
    have := hfits.room hone
    omega
  rw [hfits.alloc, Bool.not_true, if_neg Bool.false_ne_true, if_neg hroom,
    chunkBuffer_of_le hfits.complete, ← List.map_append] at hround
  exact accesses_of_next hround

/-- A chunk that does not fit makes the run go wrong. -/
theorem not_robust_of_not_chunkFits (hsize : sizeLine iss = some (count, rest))
    (hcount : count ≠ 0) (hfits : ¬ ChunkFits alloc count rest) :
    ¬ Robust (accesses alloc object iss) := by
  have hround := round_of_pos alloc object hsize hcount
  have hwrong : ∀ outcome, accesses alloc object iss = outcome →
      (outcome = .badAlloc ∨ outcome = .overrun) → ¬ Robust (accesses alloc object iss) := by
    rintro outcome houtcome hend ⟨bytes, hbytes⟩
    rw [houtcome] at hbytes
    rcases hend with rfl | rfl
    · simp at hbytes
    · simp at hbytes
  split_ifs at hround with halloc hroom
  · exact hwrong _ (accesses_of_done hround) (.inl rfl)
  · exact hwrong _ (accesses_of_done hround) (.inr rfl)
  · have hshort : rest.length < count := by
      by_contra hle
      refine hfits ⟨by simpa using halloc, Nat.le_of_not_lt hle, fun hone => ?_⟩
      have := not_and.mp hroom hone
      omega
    have hnil : rest.drop (count + 2) = [] := List.drop_eq_nil_of_le (by omega)
    rw [accesses_of_next hround, hnil]
    refine not_robust_of_mem (List.mem_append_right _ (List.mem_append_right _ ?_)) rfl
    rw [List.mem_replicate]
    exact ⟨by omega, rfl⟩

/-- The run from some point on is robust if and only if all chunks from there on fit. -/
theorem robust_accesses_iff (alloc : Nat → Bool) (bytes iss : List UInt8) :
    Robust (accesses alloc (bytes.map some) iss) ↔
      ∀ count rest, SizeLine iss count rest → count ≠ 0 → ChunkFits alloc count rest := by
  induction hn : iss.length using Nat.strong_induction_on generalizing iss bytes with
  | _ n ih =>
    cases hsize : sizeLine iss with
    | none =>
      refine iff_of_true ?_ fun count rest h => absurd h (not_sizeLine_of_none hsize count rest)
      rcases round_of_none alloc (bytes.map some) hsize with hdone | hdone
      · exact ⟨bytes, .inl (accesses_of_done hdone)⟩
      · exact ⟨bytes, .inr (accesses_of_done hdone)⟩
    | some p =>
      obtain ⟨count, rest⟩ := p
      by_cases hcount : count = 0
      · subst hcount
        refine iff_of_true ⟨bytes, .inl (accesses_of_done (round_of_zero hsize))⟩ ?_
        intro count' rest' h hcount'
        rcases h.cases_of_some hsize with ⟨rfl, -⟩ | ⟨hne, -⟩
        · exact absurd rfl hcount'
        · exact absurd rfl hne
      by_cases hfits : ChunkFits alloc count rest
      · have hlt := length_sizeLine_lt hsize
        rw [accesses_of_chunkFits hsize hcount hfits,
          ih _ (by rw [List.length_drop]; omega) _ _ rfl]
        constructor
        · intro h count' rest' hline hcount'
          rcases hline.cases_of_some hsize with ⟨rfl, rfl⟩ | ⟨-, hnext⟩
          · exact hfits
          · exact h count' rest' hnext hcount'
        · exact fun h count' rest' hline => h count' rest' (.behind hsize hcount hline)
      · refine iff_of_false (not_robust_of_not_chunkFits hsize hcount hfits) fun h => ?_
        exact hfits (h count rest (.first hsize) hcount)

/-- The outcome without the memory. -/
def Outcome.result : Outcome → Except String (List (Option UInt8))
  | returned object => .ok object
  | stoul _ => .error "stoul"
  | badAlloc => .error "bad_alloc"
  | overrun => .error "overrun"

/-- If all chunks fit, the loop without the accesses computes the same. -/
theorem result_accesses (uninit : Nat → UInt8) (bytes iss : List UInt8)
    (h : ∀ count rest, SizeLine iss count rest → count ≠ 0 → ChunkFits alloc count rest) :
    (accesses alloc (bytes.map some) iss).result =
      (reconstruct uninit bytes iss).map (List.map some) := by
  induction hn : iss.length using Nat.strong_induction_on generalizing iss bytes with
  | _ n ih =>
    rw [reconstruct]
    split
    next hget =>
      have hround : round alloc (bytes.map some) iss = .done (.returned (bytes.map some)) := by
        simp [round, hget]
      rw [accesses_of_done hround]
      rfl
    next line rest hget =>
      cases hstoul : Hex.stoul line with
      | none =>
        have hround : round alloc (bytes.map some) iss = .done (.stoul (bytes.map some)) := by
          simp [round, hget, hstoul]
        rw [accesses_of_done hround]
        rfl
      | some n =>
        have hsize : sizeLine iss = some (n % 2 ^ 32, rest) := by simp [sizeLine, hget, hstoul]
        dsimp only
        generalize n % 2 ^ 32 = count at hsize
        by_cases hcount : count = 0
        · rw [if_pos hcount, accesses_of_done (round_of_zero (hcount ▸ hsize))]
          rfl
        · have hfits := h count rest (.first hsize) hcount
          have hlt := length_sizeLine_lt hsize
          have hbuffer : readBuffer uninit count rest = (rest.take count, rest.drop count) := by
            rw [readBuffer, List.length_take_of_le hfits.complete, List.drop_of_length_le (by simp),
              List.map_nil, List.append_nil]
          rw [if_neg hcount, accesses_of_chunkFits hsize hcount hfits, hbuffer, List.drop_drop]
          refine ih _ ?_ _ _ (fun count' rest' hline => ?_) rfl
          · rw [List.length_drop]
            omega
          · exact h count' rest' (.behind hsize hcount hline)

/-- `reconstruct_chunks` is robust for exactly the data all of whose chunks fit. -/
theorem robust_reconstruct_iff (alloc : Nat → Bool) (data : List UInt8) :
    Robust (reconstructAccesses alloc data) ↔
      ∀ count rest, SizeLine data count rest → count ≠ 0 → ChunkFits alloc count rest :=
  robust_accesses_iff alloc [] data

/-- A chunk of one byte and the zero chunk. -/
def oneByteChunk : List UInt8 := [49, 13, 10, 65, 13, 10, 48, 13, 10, 13, 10]

/-- Both bytes of the line end are written into the buffer of one byte. -/
theorem reconstruct_oneByteChunk (alloc : Nat → Bool) (h : alloc 1 = true) :
    reconstructAccesses alloc oneByteChunk = .overrun := by
  have hsize : sizeLine oneByteChunk = some (1, [65, 13, 10, 48, 13, 10, 13, 10]) := by decide
  have hround := round_of_pos alloc [] hsize (by decide)
  rw [h] at hround
  exact accesses_of_done hround

/-- Six of the eight bytes appended for a chunk of two bytes were not read. -/
example : reconstructAccesses (fun _ => true) [56, 13, 10, 65, 66] =
    .returned ([some 65, some 66] ++ List.replicate 6 none) := by decide +kernel

theorem not_robust_oneByteChunk :
    ¬ ∀ data : List UInt8, Robust (reconstructAccesses (fun _ => true) data) := by
  intro h
  obtain ⟨bytes, hbytes⟩ := h oneByteChunk
  rw [reconstruct_oneByteChunk _ rfl] at hbytes
  simp at hbytes

end ChunkedTransfer
