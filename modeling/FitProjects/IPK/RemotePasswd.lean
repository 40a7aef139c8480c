import FitProjects.IPK.ClientArgs
import FitProjects.Lib.Rank
import FitProjects.Lib.Decimal
import Mathlib.Algebra.GroupWithZero.Nat

/-! # The remote passwd protocol

The server and the client of `IPK/proj1` from an accepted command line to the printed rows. The
connection is the list of the bytes sent; a read delivers all bytes that it asks for. -/

namespace RemotePasswd

/-- `Recv`. -/
def recv (bytes : Nat) (stream : List UInt8) : Packet × List UInt8 :=
  (⟨stream.take bytes, 0⟩, stream.drop bytes)

/-! ## The server -/

namespace Server

/-- The thread of `Listen` up to `ProcessData`: the arguments of `ProcessData`. -/
def receive (stream : List UInt8) : Except String (UInt8 × Packet) :=
  let (flagsPacket, stream) := recv 4 stream
  if flagsPacket.getOpcode ≠ CMSG_FLAGS then
    .error "Socket::Listen: First socket have to be flag packet"
  else
    let (dataPacket, _) := recv flagsPacket.getDataSize stream
    if dataPacket.getOpcode ≠ CMSG_DATA then
      .error "Socket::Listen: Second socket have to be data packet"
    else .ok (flagsPacket.getFlags >>> 1, dataPacket)

/-- The items that `ProcessData` reads from the packet. -/
def request (flags : UInt8) (dataPacket : Packet) : Request :=
  if flags &&& LOGIN_OR_UID ≠ 0 then .uids dataPacket.getUIDs else .logins dataPacket.getLogins

/-- `m_records` after `loadData`. -/
def loadData (db : List Entry) (flags : UInt8) : Request → List Str
  | .uids uids => Passwd.loadRecordsByUIDs flags db uids
  | .logins logins => Passwd.loadRecordsByLogins flags db logins

/-- The size of the data packet. -/
def dataSize (records : List Str) : Nat :=
  records.foldl (fun size string =>
    if string = NOT_FOUND_S then size + 1 else size + (string.length + 1)) 1

def sizePacket (records : List Str) : Packet :=
  (Packet.init SMSG_SIZE 4).writeUInt (dataSize records)

def dataPacket (records : List Str) : Packet :=
  records.foldl (fun p string =>
    if string = NOT_FOUND_S then p.writeChar NOT_FOUND else p.writeString string)
    (Packet.init SMSG_DATA (dataSize records))

/-- `ProcessData`: what it sends. -/
def processData (db : List Entry) (flags : UInt8) (dataPacket : Packet) : List UInt8 :=
  let records := loadData db flags (request flags dataPacket)
  (sizePacket records).buffer ++ (Server.dataPacket records).buffer

end Server

/-! ## The client -/

/-- The list that the client sends. -/
def ClientArgs.request (args : ClientArgs) : Request :=
  if args.checkFlag ClientArgs.LOGINS then .logins args.m_logins else .uids args.m_uids

namespace Client

/-- The first loops of `main`. -/
def rightOrder (order : List Nat) : List Nat := order.map fun a => order.countP fun b => a > b

/-- The size of the data packet. -/
def dataSize : Request → Nat
  | .logins logins => (logins.map fun login => login.length + 1).sum + 1
  | .uids uids => uids.length * 4 + 1

/-- The flags packet and the data packet. -/
def packets (args : ClientArgs) : Except String (Packet × Packet) :=
  if args.checkFlag ClientArgs.LOGINS then
    let size := dataSize (.logins args.m_logins)
    .ok ((Packet.init CMSG_FLAGS 4).writeFlagsData args.requestFlags size,
      args.m_logins.foldl Packet.writeString (Packet.init CMSG_DATA size))
  else if args.checkFlag ClientArgs.UIDS then
    let size := dataSize (.uids args.m_uids)
    .ok ((Packet.init CMSG_FLAGS 4).writeFlagsData args.requestFlags size,
      args.m_uids.foldl Packet.writeUInt (Packet.init CMSG_DATA size))
  else .error "This should never happen"

/-- The bytes of the data packet behind the opcode, from where `m_readpos` starts. -/
def receive (stream : List UInt8) : List UInt8 :=
  let (sizePacket, stream) := recv 4 stream
  let (sDataPacket, _) := recv sizePacket.getDataSize stream
  sDataPacket.buffer.drop 1

/-- A text on one of the output streams. -/
inductive Line
  | cout (s : Str)
  | cerr (s : Str)

/-- The loop over `rightOrder`; `none` when `at` throws. -/
def printRow (record : List Str) (back : Option Nat) : List Nat → Option Str
  | [] => some []
  | x :: xs => do
    let field ← record[x]?
    let rest ← printRow record back xs
    return field ++ (if some x ≠ back then 32 else 10) :: rest

/-- The body of the `while` loop of `main` for the record with the number `i`; `none` when `at`
throws. -/
def printRecord (args : ClientArgs) (i : Nat) (record : List Str) : Option (List Line) :=
  if (record.head?.bind List.head?) = some NOT_FOUND then
    if args.checkFlag ClientArgs.LOGINS then do
      let login ← args.m_logins[i]?
      return [.cerr (ascii "Login \"" ++ login ++ ascii "\" was not found\n")]
    else if args.checkFlag ClientArgs.UIDS then do
      let uid ← args.m_uids[i]?
      return [.cerr (ascii "UID " ++ decimal uid ++ ascii " was not found\n")]
    else some []
  else do
    let order := rightOrder args.m_flagsOrder
    let row ← printRow record order.getLast? order
    return [.cout row]

/-- The `while` loop of `main` on the records: what is printed, and whether it comes to its end. An
exception of `at` is not caught. -/
def printRecords (args : ClientArgs) (i : Nat) : List (List Str) → List Line × Bool
  | [] => ([], true)
  | record :: rest =>
    match printRecord args i record with
    | none => ([], false)
    | some lines =>
      let (lines', finished) := printRecords args (i + 1) rest
      (lines ++ lines', finished)

/-- The rows on the standard output. -/
def rows (lines : List Line) : List Str :=
  lines.filterMap fun
    | .cout s => some s
    | .cerr _ => none

end Client

variable {args : ClientArgs} {db : List Entry} {flags : UInt8} {cs : List Flag} {e : Entry}
  {f : Flag} {body rest : List UInt8}

/-! ## Packets on the wire -/

/-- A packet with a size and the packet of this size. -/
theorem recv_recv (x op : UInt8) (hsize : body.length + 1 < 2 ^ 24) :
    recv 4 (x :: leBytes 3 (body.length + 1) ++ op :: body) =
        (⟨x :: leBytes 3 (body.length + 1), 0⟩, op :: body) ∧
      recv (Packet.getDataSize ⟨x :: leBytes 3 (body.length + 1), 0⟩) (op :: body) =
        (⟨op :: body, 0⟩, []) := by
  have hlen : (x :: leBytes 3 (body.length + 1)).length = 4 := by simp
  refine ⟨?_, ?_⟩
  · rw [recv, List.take_left' hlen, List.drop_left' hlen]
  · rw [Packet.getDataSize_cons hsize, recv, List.take_of_length_le (by simp),
      List.drop_of_length_le (by simp)]

/-- The server gets the flags and the data packet. -/
theorem Server.receive_eq (hflags : flags < 128) (hsize : body.length + 1 < 2 ^ 24) :
    receive (((Packet.init CMSG_FLAGS 4).writeFlagsData flags (body.length + 1)).buffer ++
      CMSG_DATA :: body) = .ok (flags, ⟨CMSG_DATA :: body, 0⟩) := by
  obtain ⟨hfirst, hsecond⟩ := recv_recv (CMSG_FLAGS ||| flags <<< 1) CMSG_DATA hsize
  have hop : Packet.getOpcode ⟨(CMSG_FLAGS ||| flags <<< 1) :: leBytes 3 (body.length + 1), 0⟩ =
      CMSG_FLAGS := Packet.opcode_shift flags
  have hget : Packet.getFlags
      ⟨(CMSG_FLAGS ||| flags <<< 1) :: leBytes 3 (body.length + 1), 0⟩ >>> 1 = flags :=
    Packet.flags_shift hflags
  have hop' : Packet.getOpcode ⟨CMSG_DATA :: body, 0⟩ = CMSG_DATA := by
    change CMSG_DATA &&& 1 = CMSG_DATA
    decide
  rw [receive, Packet.writeFlagsData_eq, hfirst]
  simp only [hop, hop', ne_eq, not_true_eq_false, if_false, hsecond, hget]

/-- The client gets what is behind the opcode of the data packet. -/
theorem Client.receive_eq (hsize : body.length + 1 < 2 ^ 24) :
    receive (((Packet.init SMSG_SIZE 4).writeUInt (body.length + 1)).buffer ++
      SMSG_DATA :: body) = body := by
  obtain ⟨hfirst, hsecond⟩ := recv_recv SMSG_SIZE SMSG_DATA hsize
  rw [receive, Packet.writeUInt_size_eq, hfirst]
  simp only [hsecond]
  rfl

/-! ## The request -/

/-- The bytes of a request behind the opcode. -/
def Request.bytes : Request → List UInt8
  | logins ls => ls.flatMap (· ++ [0])
  | uids us => us.flatMap (leBytes 4)

theorem Client.dataSize_eq (r : Request) : dataSize r = r.bytes.length + 1 := by
  cases r with
  | logins ls => simp [dataSize, Request.bytes, List.length_flatMap]
  | uids us => simp [dataSize, Request.bytes, List.length_flatMap]

/-- The client sends the flags and the request. -/
theorem Client.packets_eq (hlist : args.checkFlag ClientArgs.LOGINS = true ∨
    args.checkFlag ClientArgs.UIDS = true) :
    ∃ dataPacket : Packet, packets args = .ok ((Packet.init CMSG_FLAGS 4).writeFlagsData
      args.requestFlags (args.request.bytes.length + 1), dataPacket) ∧
      dataPacket.buffer = CMSG_DATA :: args.request.bytes := by
  rw [packets, ClientArgs.request]
  split
  · refine ⟨_, by rw [dataSize_eq], ?_⟩
    have hwrite := Packet.foldl_write_init CMSG_DATA (args.m_logins.map (· ++ [0]))
    rw [List.foldl_map] at hwrite
    exact hwrite
  · rename_i hlogins
    rw [if_pos (hlist.resolve_left hlogins)]
    refine ⟨_, by rw [dataSize_eq], ?_⟩
    have hwrite := Packet.foldl_write_init CMSG_DATA (args.m_uids.map (leBytes 4))
    rw [List.foldl_map] at hwrite
    exact hwrite

/-- The server reads the request from the data packet. -/
theorem Server.request_eq (hone : ¬(args.checkFlag ClientArgs.LOGINS = true ∧
      args.checkFlag ClientArgs.UIDS = true))
    (hlist : args.checkFlag ClientArgs.LOGINS = true ∨ args.checkFlag ClientArgs.UIDS = true)
    (hlogins : ∀ login ∈ args.m_logins, 0 ∉ login) (huids : ∀ uid ∈ args.m_uids, uid < 2 ^ 32) :
    Server.request args.requestFlags ⟨CMSG_DATA :: args.request.bytes, 0⟩ = args.request := by
  rw [Server.request, ClientArgs.request]
  by_cases hl : args.checkFlag ClientArgs.LOGINS = true
  · have hu : ¬args.checkFlag ClientArgs.UIDS = true := fun hu => hone ⟨hl, hu⟩
    rw [if_neg (mt (ClientArgs.and_LOGIN_OR_UID_ne_zero args).mp hu), if_pos hl, Request.bytes,
      Packet.getLogins_cons hlogins]
  · rw [if_pos ((ClientArgs.and_LOGIN_OR_UID_ne_zero args).mpr (hlist.resolve_left hl)), if_neg hl,
      Request.bytes, Packet.getUIDs_cons huids]

/-! ## The response -/

/-- The answers with the requested fields. -/
def fieldAnswers (flags : UInt8) (answers : List (Option Entry)) : List (Option (List Str)) :=
  answers.map (Option.map (Entry.fields · flags))

theorem exists_of_mem_fieldAnswers {answers : List (Option Entry)} {fields : List Str}
    (h : some fields ∈ fieldAnswers flags answers) :
    ∃ e, some e ∈ answers ∧ fields = e.fields flags := by
  obtain ⟨answer, hanswer, heq⟩ := List.mem_map.mp h
  obtain ⟨e, rfl, rfl⟩ := Option.map_eq_some_iff.mp heq
  exact ⟨e, hanswer, rfl⟩

/-- The bytes of a string of `m_records` on the wire. -/
def recordBytes (string : Str) : List UInt8 :=
  if string = NOT_FOUND_S then [NOT_FOUND] else string ++ [0]

theorem Server.dataSize_eq (records : List Str) :
    dataSize records = (records.map recordBytes).flatten.length + 1 := by
  have hfold (n : Nat) : records.foldl (fun size string =>
      if string = NOT_FOUND_S then size + 1 else size + (string.length + 1)) n =
        (records.map recordBytes).flatten.length + n := by
    induction records generalizing n with
    | nil => exact (Nat.zero_add n).symm
    | cons string records ih =>
      rw [List.foldl_cons, ih, List.map_cons, List.flatten_cons, List.length_append, recordBytes]
      split
      · rw [List.length_singleton]
        omega
      · rw [List.length_append, List.length_singleton]
        omega
  exact hfold 1

theorem Server.dataPacket_eq (records : List Str) :
    (dataPacket records).buffer = SMSG_DATA :: (records.map recordBytes).flatten := by
  have hwrite : (fun (p : Packet) (string : Str) =>
      if string = NOT_FOUND_S then p.writeChar NOT_FOUND else p.writeString string) =
        fun p string => p.write (recordBytes string) := by
    funext p string
    rw [recordBytes]
    split <;> rfl
  rw [dataPacket, hwrite, dataSize_eq, ← List.foldl_map]
  exact Packet.foldl_write_init SMSG_DATA _

/-- A record ends with a delimiter, so it is not taken for the mark of an item that was not
found. -/
theorem record_ne_notFound (hne : requested flags ≠ []) (e : Entry) :
    Passwd.record flags e ≠ NOT_FOUND_S := by
  obtain ⟨f, hf⟩ := List.exists_mem_of_ne_nil _ hne
  have hmem : DELIMETER ∈ Passwd.record flags e := by
    rw [Passwd.record_eq, List.mem_flatMap]
    exact ⟨e.field f, List.mem_map_of_mem hf, List.mem_append_right _ (List.mem_singleton_self _)⟩
  intro h
  rw [h] at hmem
  exact absurd hmem (by decide)

theorem recordBytes_answerString (hne : requested flags ≠ []) (answer : Option Entry) :
    recordBytes (Passwd.answerString flags answer) =
      answerBytes (answer.map (Entry.fields · flags)) := by
  cases answer with
  | none => rfl
  | some e =>
    rw [Passwd.answerString, recordBytes, if_neg (record_ne_notFound hne e), Passwd.record_eq]
    rfl

theorem Server.loadData_eq (db : List Entry) (flags : UInt8) (r : Request) :
    loadData db flags r = (r.answers db).map (Passwd.answerString flags) := by
  cases r with
  | logins ls => exact Passwd.loadRecordsByLogins_eq flags db ls
  | uids us => exact Passwd.loadRecordsByUIDs_eq flags db us

/-- What the client receives are the answers. -/
theorem receive_sizePacket_dataPacket (hne : requested flags ≠ []) (answers : List (Option Entry))
    (hsize : Server.dataSize (answers.map (Passwd.answerString flags)) < 2 ^ 24) :
    Client.receive ((Server.sizePacket (answers.map (Passwd.answerString flags))).buffer ++
        (Server.dataPacket (answers.map (Passwd.answerString flags))).buffer) =
      (fieldAnswers flags answers).flatMap answerBytes := by
  rw [Server.dataSize_eq] at hsize
  rw [Server.sizePacket, Server.dataPacket_eq, Server.dataSize_eq, Client.receive_eq hsize,
    fieldAnswers, List.map_map, List.flatMap_map, ← List.flatMap_def]
  exact List.flatMap_congr fun answer _ => recordBytes_answerString hne answer

/-! ## The rows -/

theorem mem_requested : f ∈ requested flags ↔ flags &&& f.bit ≠ 0 := by
  have hall : f ∈ Flag.all := by cases f <;> decide
  rw [requested, List.mem_filter, and_iff_right hall, decide_eq_true_eq]

/-- The row of an entry for the columns of the command line. -/
def row (cs : List Flag) (e : Entry) : Str := [32].intercalate (cs.map e.field) ++ [10]

/-- A row is printed up to the last place, which comes only once. -/
theorem printRow_map {record : List Str} {g : Flag → Nat} (hne : cs ≠ []) (hnodup : cs.Nodup)
    (hg : ∀ f ∈ cs, ∀ f' ∈ cs, g f = g f' → f = f')
    (hrecord : ∀ f ∈ cs, record[g f]? = some (e.field f)) :
    Client.printRow record (cs.map g).getLast? (cs.map g) = some (row cs e) := by
  induction cs with
  | nil => exact absurd rfl hne
  | cons f cs ih =>
    rw [List.nodup_cons] at hnodup
    have hfirst := hrecord f List.mem_cons_self
    cases cs with
    | nil => simp [Client.printRow, hfirst, row]
    | cons f' cs =>
      have ih := ih (List.cons_ne_nil f' cs) hnodup.2
        (fun f hf f' hf' => hg f (List.mem_cons_of_mem _ hf) f' (List.mem_cons_of_mem _ hf'))
        fun f hf => hrecord f (List.mem_cons_of_mem _ hf)
      have hlast : ((f :: f' :: cs).map g).getLast? = ((f' :: cs).map g).getLast? := by
        rw [List.map_cons, List.map_cons, List.getLast?_cons_cons]
      have hback : some (g f) ≠ ((f' :: cs).map g).getLast? := by
        intro h
        obtain ⟨f₁, hf₁, heq⟩ := List.mem_map.mp (List.mem_of_getLast? h.symm)
        have hsame := hg f₁ (List.mem_cons_of_mem _ hf₁) f List.mem_cons_self heq
        exact hnodup.1 (hsame ▸ hf₁)
      rw [hlast, List.map_cons (a := f), Client.printRow, hfirst, ih]
      change some (e.field f ++ (if some (g f) ≠ _ then 32 else 10) :: row (f' :: cs) e) = _
      rw [if_pos hback]
      simp [row, List.intercalate_cons_cons]

/-- The client prints the fields in the order of the command line. -/
theorem printRow_eq (hnodup : cs.Nodup) (hne : cs ≠ []) (hflags : ∀ f, flags &&& f.bit ≠ 0 ↔ f ∈ cs)
    (e : Entry) :
    Client.printRow (e.fields flags) (Client.rightOrder (cs.map Flag.order)).getLast?
      (Client.rightOrder (cs.map Flag.order)) = some (row cs e) := by
  have hrank : Client.rightOrder (cs.map Flag.order) = cs.map (rank cs Flag.order) := by
    rw [Client.rightOrder, List.map_map]
    refine List.map_congr_left fun f _ => ?_
    rw [Function.comp_apply, List.countP_map]
    rfl
  have hsorted : (requested flags).Pairwise (Flag.order · < Flag.order ·) :=
    List.Pairwise.filter _ (by decide)
  have hmem (f : Flag) : f ∈ requested flags ↔ f ∈ cs := mem_requested.trans (hflags f)
  have hperm : cs.Perm (requested flags) := by
    rw [List.perm_ext_iff_of_nodup hnodup (hsorted.imp fun h => by rintro rfl; exact h.false)]
    exact fun f => (hmem f).symm
  rw [hrank]
  refine printRow_map hne hnodup ?_ fun f hf => ?_
  · exact fun f hf f' hf' => rank_inj (fun f _ f' _ h => ClientArgs.order_injective h) hf hf'
  · rw [Entry.fields, List.getElem?_map, getElem?_rank hsorted hperm hf]
    rfl

theorem isField_decimal (n : Nat) : IsField (decimal n) := by
  have hdigit : ∀ b ∈ decimal n, Decimal.isDigit b = true :=
    fun b hb => Decimal.isDigit_of_mem_print hb
  exact ⟨fun h => absurd (hdigit 0 h) (by decide), fun h => absurd (hdigit _ h) (by decide),
    fun h => absurd (hdigit _ h) (by decide)⟩

/-- The strings of an entry contain none of the bytes that structure a record. -/
def Entry.Clean (e : Entry) : Prop :=
  IsField e.pw_name ∧ IsField e.pw_gecos ∧ IsField e.pw_dir ∧ IsField e.pw_shell

theorem Entry.Clean.isField (h : e.Clean) (f : Flag) : IsField (e.field f) := by
  obtain ⟨hname, hgecos, hdir, hshell⟩ := h
  cases f with
  | userName => exact hname
  | uid => exact isField_decimal _
  | gid => exact isField_decimal _
  | name => exact hgecos
  | homeFolder => exact hdir
  | shell => exact hshell

theorem Request.mem_of_answers {r : Request} (h : some e ∈ r.answers db) : e ∈ db := by
  cases r with
  | logins ls =>
    obtain ⟨login, -, hfind⟩ := List.mem_map.mp h
    exact List.mem_of_find?_eq_some hfind
  | uids us =>
    obtain ⟨uid, -, he⟩ := List.mem_flatMap.mp h
    split at he
    · cases List.mem_singleton.mp he
    · obtain ⟨e', he', heq⟩ := List.mem_map.mp he
      obtain rfl := Option.some.inj heq
      exact (List.mem_filter.mp he').1

theorem Entry.Clean.isField_of_mem (h : e.Clean) (flags : UInt8) :
    ∀ s ∈ e.fields flags, IsField s := by
  intro s hs
  obtain ⟨f, -, rfl⟩ := List.mem_map.mp hs
  exact h.isField f

/-- The row of an entry is printed. -/
theorem printRecord_fields (hnodup : cs.Nodup) (hne : cs ≠ [])
    (hflags : ∀ f, flags &&& f.bit ≠ 0 ↔ f ∈ cs) (horder : args.m_flagsOrder = cs.map Flag.order)
    (hfields : ∀ s ∈ e.fields flags, IsField s) (i : Nat) :
    Client.printRecord args i (e.fields flags) = some [.cout (row cs e)] := by
  have hmark : ((e.fields flags).head?.bind List.head?) ≠ some NOT_FOUND := by
    intro h
    obtain ⟨s, hs, hhead⟩ := Option.bind_eq_some_iff.mp h
    exact (hfields s (List.mem_of_mem_head? hs)).2.2 (List.mem_of_mem_head? hhead)
  rw [Client.printRecord, if_neg hmark, horder]
  simp only [printRow_eq hnodup hne hflags e]
  rfl

/-- The number of the items of a request. -/
def Request.count : Request → Nat
  | logins ls => ls.length
  | uids us => us.length

/-- For an item that was not found there is no row, and an exception only behind the last item. -/
theorem printRecord_notFound (args : ClientArgs) (i : Nat) :
    (Client.printRecord args i [[NOT_FOUND]] = none ∧ args.request.count ≤ i) ∨
      ∃ lines, Client.printRecord args i [[NOT_FOUND]] = some lines ∧ Client.rows lines = [] := by
  have hmark : ([[NOT_FOUND]].head?.bind List.head?) = some NOT_FOUND := rfl
  rw [Client.printRecord, if_pos hmark, ClientArgs.request]
  split
  · cases hi : args.m_logins[i]? with
    | none => exact .inl ⟨rfl, List.getElem?_eq_none_iff.mp hi⟩
    | some login => exact .inr ⟨_, rfl, rfl⟩
  · split
    · cases hi : args.m_uids[i]? with
      | none => exact .inl ⟨rfl, List.getElem?_eq_none_iff.mp hi⟩
      | some uid => exact .inr ⟨_, rfl, rfl⟩
    · exact .inr ⟨_, rfl, rfl⟩

theorem printRecords_cons {record : List Str} {lines : List Client.Line} {i : Nat}
    (h : Client.printRecord args i record = some lines) (records : List (List Str)) :
    Client.rows (Client.printRecords args i (record :: records)).1 =
        Client.rows lines ++ Client.rows (Client.printRecords args (i + 1) records).1 ∧
      (Client.printRecords args i (record :: records)).2 =
        (Client.printRecords args (i + 1) records).2 := by
  rw [Client.printRecords, h]
  exact ⟨List.filterMap_append, rfl⟩

/-- The records that the client gets. -/
def clientRecords (flags : UInt8) (answers : List (Option Entry)) : List (List Str) :=
  (fieldAnswers flags answers).map answerRecord

/-- The loop prints the row of each entry, up to an exception. -/
theorem rows_printRecords (hnodup : cs.Nodup) (hne : cs ≠ [])
    (hflags : ∀ f, flags &&& f.bit ≠ 0 ↔ f ∈ cs) (horder : args.m_flagsOrder = cs.map Flag.order)
    {answers : List (Option Entry)} (hclean : ∀ e, some e ∈ answers → e.Clean) (i : Nat) :
    Client.rows (Client.printRecords args i (clientRecords flags answers)).1 <+:
        (answers.filterMap id).map (row cs) ∧
      ((Client.printRecords args i (clientRecords flags answers)).2 = true →
        Client.rows (Client.printRecords args i (clientRecords flags answers)).1 =
          (answers.filterMap id).map (row cs)) := by
  induction answers generalizing i with
  | nil => exact ⟨List.prefix_rfl, fun _ => rfl⟩
  | cons answer answers ih =>
    have ih := ih (fun e he => hclean e (List.mem_cons_of_mem _ he)) (i + 1)
    cases answer with
    | none =>
      have hrecords : clientRecords flags (none :: answers) =
          [[NOT_FOUND]] :: clientRecords flags answers := rfl
      have hfound : (none :: answers).filterMap id = answers.filterMap id := rfl
      rw [hrecords, hfound]
      rcases printRecord_notFound args i with ⟨hnone, -⟩ | ⟨lines, hsome, hrows⟩
      · rw [Client.printRecords, hnone]
        exact ⟨List.nil_prefix, fun h => by cases h⟩
      · obtain ⟨hcons, hend⟩ := printRecords_cons hsome (clientRecords flags answers)
        rw [hcons, hend, hrows, List.nil_append]
        exact ih
    | some e =>
      have hrecords : clientRecords flags (some e :: answers) =
          e.fields flags :: clientRecords flags answers := rfl
      have hfound : (some e :: answers).filterMap id = e :: answers.filterMap id := rfl
      have hprint := printRecord_fields hnodup hne hflags horder
        ((hclean e List.mem_cons_self).isField_of_mem flags) i
      obtain ⟨hcons, hend⟩ := printRecords_cons hprint (clientRecords flags answers)
      have hrow : Client.rows [.cout (row cs e)] = [row cs e] := rfl
      rw [hrecords, hfound, hcons, hend, hrow, List.map_cons, List.singleton_append]
      exact ⟨List.cons_prefix_cons.mpr ⟨rfl, ih.1⟩, fun h => congrArg _ (ih.2 h)⟩

/-- There is no exception if there are not more records than items. -/
theorem finished_printRecords (hnodup : cs.Nodup) (hne : cs ≠ [])
    (hflags : ∀ f, flags &&& f.bit ≠ 0 ↔ f ∈ cs) (horder : args.m_flagsOrder = cs.map Flag.order)
    {answers : List (Option Entry)} (hclean : ∀ e, some e ∈ answers → e.Clean) {i : Nat}
    (hcount : i + answers.length ≤ args.request.count) :
    (Client.printRecords args i (clientRecords flags answers)).2 = true := by
  induction answers generalizing i with
  | nil => rfl
  | cons answer answers ih =>
    rw [List.length_cons] at hcount
    have ih := ih (fun e he => hclean e (List.mem_cons_of_mem _ he)) (i := i + 1) (by omega)
    cases answer with
    | none =>
      have hrecords : clientRecords flags (none :: answers) =
          [[NOT_FOUND]] :: clientRecords flags answers := rfl
      rcases printRecord_notFound args i with ⟨-, hle⟩ | ⟨lines, hsome, -⟩
      · omega
      · rw [hrecords, (printRecords_cons hsome _).2]
        exact ih
    | some e =>
      have hrecords : clientRecords flags (some e :: answers) =
          e.fields flags :: clientRecords flags answers := rfl
      have hprint := printRecord_fields hnodup hne hflags horder
        ((hclean e List.mem_cons_self).isField_of_mem flags) i
      rw [hrecords, (printRecords_cons hprint _).2]
      exact ih

/-! ## A session -/

/-- The server gets the flags and the list that were asked for, and the client gets the answers. -/
theorem exchange {opts : List Opt} (hparse : ClientArgs.parse opts = .ok args)
    (hvalid : args.checkValidity = .ok ()) (hlogins : ∀ login ∈ args.m_logins, 0 ∉ login)
    (huids : ∀ uid ∈ args.m_uids, uid < 2 ^ 31)
    (hrequest : Client.dataSize args.request < 2 ^ 24)
    (hresponse : Server.dataSize (Server.loadData db args.requestFlags args.request) < 2 ^ 24) :
    ∃ flagsPacket dataPacket received, Client.packets args = .ok (flagsPacket, dataPacket) ∧
      Server.receive (flagsPacket.buffer ++ dataPacket.buffer) =
        .ok (args.requestFlags, received) ∧
      Server.request args.requestFlags received = args.request ∧
      Client.receive (Server.processData db args.requestFlags received) =
        (fieldAnswers args.requestFlags (args.request.answers db)).flatMap answerBytes := by
  have hparsed := ClientArgs.parsed_of_parse hparse
  obtain ⟨hlist, hcolumns⟩ := hparsed.of_checkValidity hvalid
  have hone : ¬(args.checkFlag ClientArgs.LOGINS = true ∧ args.checkFlag ClientArgs.UIDS = true) :=
    fun h => hparsed.oneList ⟨(ClientArgs.checkFlag_eq_true (i := 2) (by decide)).mp h.1,
      (ClientArgs.checkFlag_eq_true (i := 3) (by decide)).mp h.2⟩
  have hrequested : requested args.requestFlags ≠ [] := by
    obtain ⟨f, hf⟩ := List.exists_mem_of_ne_nil _ hcolumns
    exact List.ne_nil_of_mem (mem_requested.mpr ((hparsed.and_bit_ne_zero f).mpr hf))
  obtain ⟨dataPacket, hpackets, hbuffer⟩ := Client.packets_eq hlist
  rw [Client.dataSize_eq] at hrequest
  have hserver := Server.request_eq hone hlist hlogins fun uid h => (huids uid h).trans (by decide)
  refine ⟨_, dataPacket, ⟨CMSG_DATA :: args.request.bytes, 0⟩, hpackets, ?_, hserver, ?_⟩
  · rw [hbuffer, Server.receive_eq hparsed.requestFlags_lt hrequest]
  · rw [Server.loadData_eq] at hresponse
    rw [Server.processData, hserver, Server.loadData_eq,
      receive_sizePacket_dataPacket hrequested _ hresponse]

/-- From an accepted command line to the printed rows. The server gets the flags and the list that
were asked for; the successive records of the client are those of the server; the rows are printed
in the order of the columns, up to an exception, which needs more records than items. -/
theorem session {opts : List Opt} (hparse : ClientArgs.parse opts = .ok args)
    (hvalid : args.checkValidity = .ok ()) (hdb : ∀ e ∈ db, e.Clean)
    (hlogins : ∀ login ∈ args.m_logins, 0 ∉ login) (huids : ∀ uid ∈ args.m_uids, uid < 2 ^ 31)
    (hrequest : Client.dataSize args.request < 2 ^ 24)
    (hresponse : Server.dataSize (Server.loadData db args.requestFlags args.request) < 2 ^ 24) :
    let answers := args.request.answers db
    ∃ flagsPacket dataPacket received, Client.packets args = .ok (flagsPacket, dataPacket) ∧
      Server.receive (flagsPacket.buffer ++ dataPacket.buffer) =
        .ok (args.requestFlags, received) ∧
      (∀ f : Flag, args.requestFlags &&& f.bit ≠ 0 ↔ f ∈ columns opts) ∧
      Server.request args.requestFlags received = args.request ∧
      Server.loadData db args.requestFlags args.request =
        answers.map (Passwd.answerString args.requestFlags) ∧
      records (Client.receive (Server.processData db args.requestFlags received)) =
        clientRecords args.requestFlags answers ∧
      ∃ lines finished,
        Client.printRecords args 0
          (records (Client.receive (Server.processData db args.requestFlags received))) =
            (lines, finished) ∧
        Client.rows lines <+: (answers.filterMap id).map (row (columns opts)) ∧
        (finished = true →
          Client.rows lines = (answers.filterMap id).map (row (columns opts))) ∧
        (answers.length ≤ args.request.count → finished = true) := by
  intro answers
  have hparsed := ClientArgs.parsed_of_parse hparse
  obtain ⟨hlist, hcolumns⟩ := hparsed.of_checkValidity hvalid
  have hflags := hparsed.and_bit_ne_zero
  have hrequested : requested args.requestFlags ≠ [] := by
    obtain ⟨f, hf⟩ := List.exists_mem_of_ne_nil _ hcolumns
    exact List.ne_nil_of_mem (mem_requested.mpr ((hflags f).mpr hf))
  have hclean : ∀ e, some e ∈ answers → e.Clean := fun e he => hdb e (Request.mem_of_answers he)
  obtain ⟨flagsPacket, dataPacket, received, hpackets, hreceive, hserver, hbytes⟩ :=
    exchange hparse hvalid hlogins huids hrequest hresponse
  have hrecords : records (Client.receive (Server.processData db args.requestFlags received)) =
      clientRecords args.requestFlags answers := by
    rw [hbytes]
    refine records_answers fun fields hfields => ?_
    obtain ⟨e, he, rfl⟩ := exists_of_mem_fieldAnswers hfields
    exact ⟨by rw [Entry.fields, ne_eq, List.map_eq_nil_iff]; exact hrequested,
      (hclean e he).isField_of_mem _⟩
  refine ⟨flagsPacket, dataPacket, received, hpackets, hreceive, hflags, hserver,
    Server.loadData_eq db _ _, hrecords, _, _, rfl, ?_⟩
  rw [hrecords]
  obtain ⟨hheader, hall⟩ := rows_printRecords hparsed.nodup hcolumns hflags hparsed.order hclean 0
  exact ⟨hheader, hall, fun h => finished_printRecords hparsed.nodup hcolumns hflags hparsed.order
    hclean (by omega)⟩

/-- `-h s -p 1 -l A b -U -L`. -/
def someOpts : List Opt :=
  [.hostname [115], .port 1, .logins [[65], [98]], .column .uid, .column .userName]

def someArgs : ClientArgs := ⟨0x037, [115], 1, [1, 0], [[65], [98]], []⟩

/-- The entry `a:1:2:::`. -/
def someEntry : Entry := ⟨[97], 1, 2, [], [], []⟩

theorem session_someOpts :
    let answers := someArgs.request.answers [someEntry]
    ∃ flagsPacket dataPacket received, Client.packets someArgs = .ok (flagsPacket, dataPacket) ∧
      Server.receive (flagsPacket.buffer ++ dataPacket.buffer) =
        .ok (someArgs.requestFlags, received) ∧
      (∀ f : Flag, someArgs.requestFlags &&& f.bit ≠ 0 ↔ f ∈ columns someOpts) ∧
      Server.request someArgs.requestFlags received = someArgs.request ∧
      Server.loadData [someEntry] someArgs.requestFlags someArgs.request =
        answers.map (Passwd.answerString someArgs.requestFlags) ∧
      records (Client.receive (Server.processData [someEntry] someArgs.requestFlags received)) =
        clientRecords someArgs.requestFlags answers ∧
      ∃ lines finished,
        Client.printRecords someArgs 0 (records (Client.receive
          (Server.processData [someEntry] someArgs.requestFlags received))) = (lines, finished) ∧
        Client.rows lines <+: (answers.filterMap id).map (row (columns someOpts)) ∧
        (finished = true →
          Client.rows lines = (answers.filterMap id).map (row (columns someOpts))) ∧
        (answers.length ≤ someArgs.request.count → finished = true) :=
  session (show ClientArgs.parse someOpts = .ok someArgs by rfl) (by rfl)
    (by simp [Entry.Clean, IsField, someEntry, DELIMETER, NOT_FOUND]) (by decide) (by decide)
    (by decide) (by decide)

end RemotePasswd
