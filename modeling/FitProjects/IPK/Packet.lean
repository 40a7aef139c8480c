import FitProjects.Lib.Bytes

/-! # Packets of the remote passwd protocol

`Packet`, `ClientPacket` and `ServerPacket` of `IPK/proj1`. A packet starts with a byte of the
opcode and the flags. In the first packet of each side the next three bytes are the size of the
second one, which carries the numbers or strings. `m_size` is the length of the buffer, and
`m_readpos` is represented by the bytes from there on. -/

namespace RemotePasswd

/-- A string without its final NUL. -/
abbrev Str := List UInt8

/-- A string constant of the source. -/
def ascii (s : String) : Str := s.toList.map fun c => UInt8.ofNat c.toNat

/-- `Opcode`. -/
def CMSG_FLAGS : UInt8 := 0
def CMSG_DATA : UInt8 := 1
def SMSG_SIZE : UInt8 := 0
def SMSG_DATA : UInt8 := 1

def DELIMETER : UInt8 := 10
def NOT_FOUND : UInt8 := 11

structure Packet where
  buffer : List UInt8
  writepos : Nat

namespace Packet

/-- `Packet(op, size)` and `Init`. -/
def init (op : UInt8) (size : Nat) : Packet := ⟨poke (List.replicate size 0) 0 [op], 0⟩

def getOpcode (p : Packet) : UInt8 := p.buffer.headD 0 &&& 1

def getDataSize (p : Packet) : Nat := leNat (p.buffer.take 4) >>> 8

/-- The `memcpy` of the operators `<<`. -/
def write (p : Packet) (bytes : List UInt8) : Packet :=
  ⟨poke p.buffer (1 + p.writepos) bytes, p.writepos + bytes.length⟩

/-- `<<` on `unsigned int`. -/
def writeUInt (p : Packet) (data : Nat) : Packet := p.write (leBytes 4 data)

/-- `<<` on `std::string`: the bytes and the final NUL. -/
def writeString (p : Packet) (data : Str) : Packet := p.write (data ++ [0])

/-- `<<` on `unsigned char`. -/
def writeChar (p : Packet) (data : UInt8) : Packet := p.write [data]

def getFlags (p : Packet) : UInt8 := p.buffer.headD 0

/-- `WriteFlagsData`: the opcode is the first bit. -/
def writeFlagsData (p : Packet) (flags : UInt8) (size : Nat) : Packet :=
  { p with buffer := poke (p.buffer.modify 0 (· ||| flags <<< 1)) 1 (leBytes 3 size) }

def getUID (p : Packet) (i : Nat) : Nat := leNat ((p.buffer.drop (1 + 4 * i)).take 4)

def getUIDs (p : Packet) : List Nat := (List.range (p.buffer.length / 4)).map p.getUID

/-- The loop of `getLogins`. -/
def splitLogins (buffer : Str) : List UInt8 → List Str
  | [] => []
  | c :: rest => if c = 0 then buffer :: splitLogins [] rest else splitLogins (buffer ++ [c]) rest

def getLogins (p : Packet) : List Str := splitLogins [] (p.buffer.drop 1)

end Packet

/-- The loop of `getRecord` over the bytes that are not read yet. -/
def readRecord (record : List Str) (buffer : Str) : List UInt8 → List Str × List UInt8
  | [] => (record, [])
  | c :: rest =>
    if c = 0 then (record, c :: rest)
    else if c = NOT_FOUND then (record ++ [[NOT_FOUND]], c :: rest)
    else if c = DELIMETER then readRecord (record ++ [buffer]) [] rest
    else readRecord record (buffer ++ [c]) rest

/-- `getRecord`: the record, and the bytes that are not read after `m_readpos++`. -/
def getRecord (unread : List UInt8) : List Str × List UInt8 :=
  let (record, rest) := readRecord [] [] unread
  (record, rest.drop 1)

theorem length_readRecord_le (record : List Str) (buffer : Str) (unread : List UInt8) :
    (readRecord record buffer unread).2.length ≤ unread.length := by
  induction unread generalizing record buffer with
  | nil => exact Nat.le_refl 0
  | cons c rest ih =>
    rw [readRecord]
    split
    · exact Nat.le_refl _
    · split
      · exact Nat.le_refl _
      · split
        · exact Nat.le_succ_of_le (ih _ _)
        · exact Nat.le_succ_of_le (ih _ _)

theorem length_getRecord_lt {unread : List UInt8} (h : (getRecord unread).1 ≠ []) :
    (getRecord unread).2.length < unread.length := by
  cases unread with
  | nil => exact absurd rfl h
  | cons c rest =>
    have hle := length_readRecord_le [] [] (c :: rest)
    rw [List.length_cons] at hle
    rw [getRecord, List.length_drop, List.length_cons]
    omega

/-- The results of the successive calls of `getRecord` until the empty record. -/
def records (unread : List UInt8) : List (List Str) :=
  if _ : (getRecord unread).1 = [] then []
  else (getRecord unread).1 :: records (getRecord unread).2
termination_by unread.length
decreasing_by exact length_getRecord_lt ‹_›

variable {s : Str} {rest unread : List UInt8} {op flags : UInt8} {size : Nat} {p : Packet}

namespace Packet

/-! ## The first packets -/

theorem init_eq (op : UInt8) (n : Nat) : init op (n + 1) = ⟨op :: List.replicate n 0, 0⟩ := by
  rw [init, List.replicate_succ]
  congr 1
  exact poke_append (a := []) (b := [0]) rfl

theorem writeFlagsData_eq (flags : UInt8) (size : Nat) :
    ((init CMSG_FLAGS 4).writeFlagsData flags size).buffer =
      (CMSG_FLAGS ||| flags <<< 1) :: leBytes 3 size := by
  rw [init_eq]
  exact poke_append (a := [_]) (b := [0, 0, 0]) (c := []) rfl

/-- The fourth byte of the size lies behind the packet. -/
theorem writeUInt_size_eq (size : Nat) :
    ((init SMSG_SIZE 4).writeUInt size).buffer = SMSG_SIZE :: leBytes 3 size := by
  rw [init_eq, ← take_leBytes (show 3 ≤ 4 by decide)]
  exact poke_append_of_le (a := [_]) (b := [0, 0, 0]) (by simp)

theorem getDataSize_cons (hsize : size < 2 ^ 24) (c : UInt8) :
    getDataSize ⟨c :: leBytes 3 size, w⟩ = size := by
  have hc := c.toNat_lt
  rw [getDataSize, List.take_of_length_le (by simp), leNat_cons,
    leNat_leBytes_of_lt (Nat.lt_of_lt_of_eq hsize (by decide)), Nat.shiftRight_eq_div_pow]
  omega

/-- The flags pass through the packet if they have seven bits. -/
theorem flags_shift (h : flags < 128) : (CMSG_FLAGS ||| flags <<< 1) >>> 1 = flags := by
  have hlt : flags.toNat < 128 := UInt8.lt_iff_toNat_lt.mp h
  rw [CMSG_FLAGS, UInt8.zero_or, ← UInt8.toNat_inj, UInt8.toNat_shiftRight, UInt8.toNat_shiftLeft]
  simp only [UInt8.toNat_one, Nat.shiftRight_eq_div_pow, Nat.shiftLeft_eq, Nat.reduceMod,
    Nat.pow_one]
  omega

theorem opcode_shift (flags : UInt8) : (CMSG_FLAGS ||| flags <<< 1) &&& 1 = CMSG_FLAGS := by
  rw [CMSG_FLAGS, UInt8.zero_or, ← UInt8.toNat_inj, UInt8.toNat_and, UInt8.toNat_shiftLeft]
  simp only [UInt8.toNat_one, UInt8.toNat_zero, Nat.shiftLeft_eq, Nat.and_one_is_mod, Nat.reduceMod,
    Nat.pow_one]
  omega

/-! ## The second packets -/

/-- Writing into a packet that has just the size for what is written. -/
theorem foldl_write {a b : List UInt8} {pieces : List (List UInt8)}
    (hpos : a.length = 1 + p.writepos) (hp : p.buffer = a ++ b)
    (hlen : b.length = pieces.flatten.length) :
    (pieces.foldl write p).buffer = a ++ pieces.flatten := by
  induction pieces generalizing p a b with
  | nil =>
    obtain rfl := List.eq_nil_of_length_eq_zero hlen
    exact hp
  | cons piece pieces ih =>
    rw [List.flatten_cons, List.length_append] at hlen
    have hbuffer : p.buffer = a ++ b.take piece.length ++ b.drop piece.length := by
      rw [hp, List.append_assoc, List.take_append_drop]
    have hwrite : (p.write piece).buffer = a ++ piece ++ b.drop piece.length := by
      rw [write, hbuffer, ← hpos]
      exact poke_append (List.length_take_of_le (by omega))
    rw [List.foldl_cons, ih (a := a ++ piece) ?_ hwrite ?_, List.flatten_cons, List.append_assoc]
    · rw [List.length_append, hpos, write, Nat.add_assoc]
    · rw [List.length_drop]
      omega

theorem foldl_write_init (op : UInt8) (pieces : List (List UInt8)) :
    (pieces.foldl write (init op (pieces.flatten.length + 1))).buffer = op :: pieces.flatten := by
  rw [init_eq]
  exact foldl_write (a := [op]) rfl rfl List.length_replicate

theorem getUIDs_cons {uids : List Nat} (h : ∀ uid ∈ uids, uid < 2 ^ 32) :
    getUIDs ⟨op :: uids.flatMap (leBytes 4), w⟩ = uids := by
  have hlen (uids : List Nat) : (uids.flatMap (leBytes 4)).length = 4 * uids.length := by
    induction uids with
    | nil => rfl
    | cons uid uids ih => rw [List.flatMap_cons, List.length_append, ih, length_leBytes,
        List.length_cons, Nat.mul_succ, Nat.add_comm]
  have hsize (uids : List Nat) :
      (op :: uids.flatMap (leBytes 4)).length / 4 = uids.length := by
    rw [List.length_cons, hlen]
    omega
  rw [getUIDs, hsize]
  induction uids with
  | nil => rfl
  | cons uid uids ih =>
    rw [List.forall_mem_cons] at h
    have hfirst : getUID ⟨op :: (uid :: uids).flatMap (leBytes 4), w⟩ 0 = uid := by
      rw [getUID, Nat.mul_zero, List.drop_succ_cons, List.drop_zero, List.flatMap_cons,
        List.take_left' (length_leBytes 4 uid), leNat_leBytes_of_lt h.1]
    have hnext (i : Nat) : getUID ⟨op :: (uid :: uids).flatMap (leBytes 4), w⟩ (i + 1) =
        getUID ⟨op :: uids.flatMap (leBytes 4), w⟩ i := by
      rw [getUID, getUID, Nat.add_comm 1, Nat.add_comm 1, List.drop_succ_cons, List.drop_succ_cons,
        List.flatMap_cons, Nat.mul_succ, Nat.add_comm (4 * i), ← List.drop_drop,
        List.drop_left' (length_leBytes 4 uid)]
    rw [List.length_cons, List.range_succ_eq_map, List.map_cons, List.map_map, hfirst]
    exact congrArg (uid :: ·) ((List.map_congr_left fun i _ => hnext i).trans (ih h.2))

theorem splitLogins_append (hs : 0 ∉ s) (buffer : Str) :
    splitLogins buffer (s ++ 0 :: rest) = (buffer ++ s) :: splitLogins [] rest := by
  induction s generalizing buffer with
  | nil => simp [splitLogins]
  | cons c s ih =>
    rw [List.mem_cons, not_or] at hs
    rw [List.cons_append, splitLogins, if_neg (Ne.symm hs.1), ih hs.2, List.append_assoc,
      List.singleton_append]

theorem getLogins_cons {logins : List Str} (h : ∀ login ∈ logins, 0 ∉ login) :
    getLogins ⟨op :: logins.flatMap (· ++ [0]), w⟩ = logins := by
  rw [getLogins, List.drop_one, List.tail_cons]
  induction logins with
  | nil => rfl
  | cons login logins ih =>
    rw [List.forall_mem_cons] at h
    rw [List.flatMap_cons, List.append_assoc, List.singleton_append, splitLogins_append h.1,
      List.nil_append, ih h.2]

end Packet

/-! ## Reading records -/

/-- A string that contains none of the bytes that structure a record. -/
def IsField (s : Str) : Prop := 0 ∉ s ∧ DELIMETER ∉ s ∧ NOT_FOUND ∉ s

theorem readRecord_append (hs : IsField s) (record : List Str) (buffer : Str) :
    readRecord record buffer (s ++ DELIMETER :: rest) =
      readRecord (record ++ [buffer ++ s]) [] rest := by
  obtain ⟨h0, hdel, hnf⟩ := hs
  induction s generalizing buffer with
  | nil => simp [readRecord, DELIMETER, NOT_FOUND]
  | cons c s ih =>
    rw [List.mem_cons, not_or] at h0 hdel hnf
    rw [List.cons_append, readRecord, if_neg (Ne.symm h0.1), if_neg (Ne.symm hnf.1),
      if_neg (Ne.symm hdel.1), ih _ h0.2 hdel.2 hnf.2, List.append_assoc, List.singleton_append]

theorem getRecord_fields {fields : List Str} (h : ∀ s ∈ fields, IsField s) :
    getRecord (fields.flatMap (· ++ [DELIMETER]) ++ 0 :: rest) = (fields, rest) := by
  suffices hread : ∀ record, readRecord record []
      (fields.flatMap (· ++ [DELIMETER]) ++ 0 :: rest) = (record ++ fields, 0 :: rest) by
    rw [getRecord, hread, List.nil_append]
    rfl
  induction fields with
  | nil => simp [readRecord]
  | cons s fields ih =>
    rw [List.forall_mem_cons] at h
    intro record
    rw [List.flatMap_cons, List.append_assoc, List.append_assoc, List.singleton_append,
      readRecord_append h.1, List.nil_append, ih h.2, List.append_assoc, List.singleton_append]

/-- An answer to one item of a request on the wire. -/
def answerBytes : Option (List Str) → List UInt8
  | none => [NOT_FOUND]
  | some fields => fields.flatMap (· ++ [DELIMETER]) ++ [0]

/-- The record that the client gets for an answer. -/
def answerRecord : Option (List Str) → List Str
  | none => [[NOT_FOUND]]
  | some fields => fields

/-- The client reads the answers as they were sent. -/
theorem records_answers {answers : List (Option (List Str))}
    (h : ∀ fields, some fields ∈ answers → fields ≠ [] ∧ ∀ s ∈ fields, IsField s) :
    records (answers.flatMap answerBytes) = answers.map answerRecord := by
  induction answers with
  | nil => rw [records]; rfl
  | cons answer answers ih =>
    have hget : getRecord ((answer :: answers).flatMap answerBytes) =
        (answerRecord answer, answers.flatMap answerBytes) := by
      cases answer with
      | none => rfl
      | some fields =>
        rw [List.flatMap_cons, answerBytes, List.append_assoc, List.singleton_append]
        exact getRecord_fields (h fields List.mem_cons_self).2
    have hne : answerRecord answer ≠ [] := by
      cases answer with
      | none => exact List.cons_ne_nil _ _
      | some fields => exact (h fields List.mem_cons_self).1
    rw [records, hget, dif_neg hne, List.map_cons,
      ih fun fields hf => h fields (List.mem_cons_of_mem _ hf)]

end RemotePasswd
