import FitProjects.PDS.SpooferRestore

/-! # The interceptor

`Interceptor.cpp` of `PDS`: the table from the addresses of the grouped devices to the MAC addresses
of their partners, and the loop that sends the frames of one device on to the other. A timeout of
the socket leaves the packet of the round before, which is looked at once more. Every `Socket::send`
succeeds; one that sends nothing throws and ends the program. -/

namespace Interceptor

open PDS Spoofer

/-- What `recvPacket` returns with. -/
inductive Event
  | timeout
  | frame (data : Frame)

/-- `std::unordered_map`, the last value of a key first. -/
abbrev PoisonTable := List (Str × UInt64)

/-! ## The table -/

/-- `table[ip.address] = MACToInt(mac.first)`; `none` is an exception. -/
def addAddress (mac : Str) (table : PoisonTable) (ip : IpAddress) : Option PoisonTable :=
  (MACToInt mac).map fun int => (ip.address, int) :: table

def addPair (mac : Str × MacProperties) (table : PoisonTable) (cmp_mac : Str × MacProperties) :
    Option PoisonTable :=
  if mac.1 ≠ cmp_mac.1 ∧ mac.2.group = cmp_mac.2.group then
    cmp_mac.2.addresses.foldlM (addAddress mac.1) table
  else some table

def addDevice (parseTable : ScanTable) (table : PoisonTable) (mac : Str × MacProperties) :
    Option PoisonTable :=
  if mac.2.group = [] then some table else parseTable.rows.foldlM (addPair mac) table

def constructPoisonTable (parseTable : ScanTable) : Option PoisonTable :=
  parseTable.rows.foldlM (addDevice parseTable) []

/-! ## The loop -/

section
variable (inet : ICMPv6.Inet) (table : PoisonTable) (src_mac : Mac)

/-- The text of the source address. -/
def source (buffer : Frame) (protocol : Nat) : Option Str :=
  if protocol = 1 then getSrcIP buffer else (getSrcIPv6 buffer).map inet.ntop

/-- The search for the source, the packet afterwards, and the frame that is sent, if any. -/
def answer (buffer : Frame) (ip : Str) : Option (Frame × Option Frame) :=
  match table.lookup ip with
  | none => some (buffer, none)
  | some mac => (setDstMac buffer mac).bind fun buffer =>
      (setSrcMac buffer src_mac).map fun buffer => (buffer, some buffer)

/-- One round after `recvPacket`, undefined when a field is read behind the end. -/
def round (buffer : Frame) : Option (Frame × Option Frame) :=
  (getIPProtocol buffer).bind fun protocol =>
    if protocol = 0 then some (buffer, none)
    else (getDstMac buffer).bind fun dst =>
      if dst = MacBinToInt src_mac then
        (source inet buffer protocol).bind (answer table src_mac buffer)
      else some (buffer, none)

def recvPacket (buffer : Frame) : Event → Frame
  | .timeout => buffer
  | .frame data => data

/-- The frames sent until the signal. -/
def run (buffer : Frame) : List Event → Option (List Frame)
  | [] => some []
  | event :: events =>
    (round inet table src_mac (recvPacket buffer event)).bind fun (buffer, sent) =>
      (run buffer events).map fun rest => sent.toList ++ rest

/-- The text of the source address of an IP packet. -/
def sourceOf (frame : Frame) : Option Str :=
  (getIPProtocol frame).bind fun protocol =>
    if protocol = 0 then none else source inet frame protocol

/-- What becomes of a frame that is received. -/
def forward (frame : Frame) : Option Frame := (round inet table src_mac frame).bind Prod.snd

/-- All fields that are read of a frame lie inside of it. -/
structure Readable (frame : Frame) : Prop where
  header : 14 ≤ frame.length
  ipv4 : frame.take 6 = src_mac.toList → (frame.drop 12).take 2 = [8, 0] → 30 ≤ frame.length
  ipv6 : frame.take 6 = src_mac.toList → (frame.drop 12).take 2 = [0x86, 0xDD] → 38 ≤ frame.length

end

/-- The frames that are received. -/
def frames (events : List Event) : List Frame :=
  events.filterMap fun
    | .timeout => none
    | .frame data => some data

/-! ## Frames -/

variable {inet : ICMPv6.Inet} {table : PoisonTable} {src_mac : Mac} {frame out : Frame}

/-- The two addresses before the rest of the frame are exchanged. -/
theorem setMacs (src_mac mac : Mac) (h : 12 ≤ frame.length) :
    (setDstMac frame (MacBinToInt mac)).bind (fun buffer => setSrcMac buffer src_mac) =
      some (mac.toList ++ src_mac.toList ++ frame.drop 12) := by
  have hlen : 12 ≤ (mac.toList ++ frame.drop 6).length := by
    rw [List.length_append, Vector.length_toList, List.length_drop]
    omega
  have htake : (mac.toList ++ frame.drop 6).take 6 = mac.toList :=
    List.take_left' mac.length_toList
  have hdrop : (mac.toList ++ frame.drop 6).drop 12 = frame.drop 12 := by
    rw [List.drop_append, List.drop_eq_nil_of_le (by rw [Vector.length_toList]; decide),
      Vector.length_toList, List.drop_drop, List.nil_append]
  rw [setDstMac, if_pos (by omega), bytes_MacBinToInt, Option.bind_some, setSrcMac, if_pos hlen,
    htake, hdrop]

theorem isSome_getIPProtocol : (getIPProtocol frame).isSome ↔ 14 ≤ frame.length := by
  rw [getIPProtocol, Option.isSome_map, isSome_field (by decide)]

theorem getDstMac_eq_iff : getDstMac frame = some (MacBinToInt src_mac) ↔
    frame.take 6 = src_mac.toList := by
  rw [getDstMac, Option.map_eq_some_iff]
  constructor
  · rintro ⟨mac, hfield, heq⟩
    rw [← MacBinToInt_injective heq]
    exact field_eq_some.mp hfield
  · intro h
    exact ⟨src_mac, field_eq_some.mpr h, rfl⟩

theorem getIPProtocol_cases (h : 14 ≤ frame.length) :
    ((frame.drop 12).take 2 = [8, 0] ∧ getIPProtocol frame = some 1) ∨
    ((frame.drop 12).take 2 = [0x86, 0xDD] ∧ getIPProtocol frame = some 2) ∨
    ((frame.drop 12).take 2 ≠ [8, 0] ∧ (frame.drop 12).take 2 ≠ [0x86, 0xDD] ∧
      getIPProtocol frame = some 0) := by
  have hsome : (field frame 12 2).isSome := (isSome_field (by decide)).mpr h
  obtain ⟨type, htype⟩ := Option.isSome_iff_exists.mp hsome
  have heq (v : Vector UInt8 2) : type = v ↔ (frame.drop 12).take 2 = v.toList := by
    rw [field_eq_some.mp htype, Vector.toList_inj]
  rw [getIPProtocol, htype, Option.map_some]
  split
  next h4 => exact .inl ⟨(heq _).mp h4, rfl⟩
  next h4 =>
    split
    next h6 => exact .inr (.inl ⟨(heq _).mp h6, rfl⟩)
    next h6 => exact .inr (.inr ⟨fun h => h4 ((heq _).mpr h), fun h => h6 ((heq _).mpr h), rfl⟩)

/-! ## One round -/

theorem answer_of_none {ip : Str} (h : table.lookup ip = none) :
    answer table src_mac frame ip = some (frame, none) := by rw [answer, h]

theorem answer_of_some {ip : Str} {mac : Mac} (h : table.lookup ip = some (MacBinToInt mac))
    (hlen : 12 ≤ frame.length) : answer table src_mac frame ip =
      some (mac.toList ++ src_mac.toList ++ frame.drop 12,
        some (mac.toList ++ src_mac.toList ++ frame.drop 12)) := by
  have hset := setMacs src_mac mac hlen
  obtain ⟨buffer, hdst, hsrc⟩ := Option.bind_eq_some_iff.mp hset
  rw [answer, h]
  dsimp only
  rw [hdst, Option.bind_some, hsrc, Option.map_some]

theorem isSome_answer (ip : Str) (hlen : 12 ≤ frame.length) :
    (answer table src_mac frame ip).isSome := by
  rw [answer]
  split
  next => rfl
  next mac _ =>
    rw [setDstMac, if_pos (by omega), Option.bind_some, setSrcMac, if_pos]
    · rfl
    · simp
      omega

/-- A frame that is not for the interceptor, or no IP packet. -/
theorem round_of_ne (hlen : 14 ≤ frame.length)
    (h : frame.take 6 = src_mac.toList → getIPProtocol frame = some 0) :
    round inet table src_mac frame = some (frame, none) := by
  obtain ⟨protocol, hprotocol⟩ := Option.isSome_iff_exists.mp (isSome_getIPProtocol.mpr hlen)
  have hsome : (field frame 0 6).isSome := (isSome_field (by decide)).mpr (by omega)
  obtain ⟨mac, hmac⟩ := Option.isSome_iff_exists.mp hsome
  have hdst : getDstMac frame = some (MacBinToInt mac) := by rw [getDstMac, hmac, Option.map_some]
  rw [round, hprotocol, Option.bind_some]
  split
  next => rfl
  next hne =>
    rw [hdst, Option.bind_some, if_neg]
    intro heq
    rw [heq] at hdst
    exact hne (Option.some.inj (hprotocol.symm.trans (h (getDstMac_eq_iff.mp hdst))))

theorem round_of_eq (inet : ICMPv6.Inet) (table : PoisonTable) {protocol : Nat}
    (hprotocol : getIPProtocol frame = some protocol)
    (hne : protocol ≠ 0) (h : frame.take 6 = src_mac.toList) :
    round inet table src_mac frame =
      (source inet frame protocol).bind (answer table src_mac frame) := by
  rw [round, hprotocol, Option.bind_some, if_neg hne, getDstMac_eq_iff.mpr h, Option.bind_some,
    if_pos rfl]

/-- A frame is readable if and only if no field is read behind its end. -/
theorem isSome_round (inet : ICMPv6.Inet) (table : PoisonTable) :
    (round inet table src_mac frame).isSome ↔ Readable src_mac frame := by
  by_cases hlen : 14 ≤ frame.length
  · have hanswer (protocol : Nat) :
        ((source inet frame protocol).bind (answer table src_mac frame)).isSome ↔
          (source inet frame protocol).isSome := by
      cases hsource : source inet frame protocol with
      | none => exact Iff.rfl
      | some ip => exact iff_of_true (isSome_answer ip (by omega)) rfl
    by_cases hdst : frame.take 6 = src_mac.toList
    · rcases getIPProtocol_cases hlen with ⟨htype, hprotocol⟩ | ⟨htype, hprotocol⟩ |
        ⟨h4, h6, hprotocol⟩
      · rw [round_of_eq _ _ hprotocol (by decide) hdst, hanswer, source, if_pos rfl, getSrcIP,
          Option.isSome_map, isSome_field (by decide)]
        exact ⟨fun h => ⟨hlen, fun _ _ => h, fun _ h6 => (by rw [htype] at h6; cases h6)⟩,
          fun h => h.ipv4 hdst htype⟩
      · rw [round_of_eq _ _ hprotocol (by decide) hdst, hanswer, source, if_neg (by decide),
          Option.isSome_map, getSrcIPv6, isSome_field (by decide)]
        exact ⟨fun h => ⟨hlen, fun _ h4 => (by rw [htype] at h4; cases h4), fun _ _ => h⟩,
          fun h => h.ipv6 hdst htype⟩
      · rw [round_of_ne hlen fun _ => hprotocol]
        exact iff_of_true rfl ⟨hlen, fun _ h => absurd h h4, fun _ h => absurd h h6⟩
    · rw [round_of_ne hlen fun h => absurd h hdst]
      exact iff_of_true rfl ⟨hlen, fun h => absurd h hdst, fun h => absurd h hdst⟩
  · have hnone : getIPProtocol frame = none :=
      Option.not_isSome_iff_eq_none.mp fun h => hlen (isSome_getIPProtocol.mp h)
    rw [round, hnone]
    exact iff_of_false Bool.false_ne_true fun h => hlen h.header

/-- The values of the table come from MAC addresses. -/
def Values (table : PoisonTable) : Prop := ∀ e ∈ table, ∃ mac, e.2 = MacBinToInt mac

theorem Values.lookup (h : Values table) {ip : Str} {int : UInt64}
    (hlookup : table.lookup ip = some int) :
    ∃ mac, int = MacBinToInt mac := by
  obtain ⟨l₁, l₂, rfl, -⟩ := List.lookup_eq_some_iff.mp hlookup
  exact h (ip, int) (by simp)

/-- What a round does with a readable frame: it is sent on to the partner of its source, or left
alone. -/
theorem round_cases (inet : ICMPv6.Inet) (hvalues : Values table) (h : Readable src_mac frame) :
    (∃ ip mac, frame.take 6 = src_mac.toList ∧ sourceOf inet frame = some ip ∧
      table.lookup ip = some (MacBinToInt mac) ∧
      round inet table src_mac frame = some (mac.toList ++ src_mac.toList ++ frame.drop 12,
        some (mac.toList ++ src_mac.toList ++ frame.drop 12))) ∨
    ((frame.take 6 = src_mac.toList → ∀ ip, sourceOf inet frame = some ip → table.lookup ip = none) ∧
      round inet table src_mac frame = some (frame, none)) := by
  obtain ⟨result, hround⟩ := Option.isSome_iff_exists.mp
    ((isSome_round inet table).mpr h)
  obtain ⟨protocol, hprotocol⟩ := Option.isSome_iff_exists.mp (isSome_getIPProtocol.mpr h.header)
  by_cases hdst : frame.take 6 = src_mac.toList ∧ protocol ≠ 0
  · have heq := round_of_eq inet table hprotocol hdst.2 hdst.1
    rw [hround] at heq
    obtain ⟨ip, hip, hanswer⟩ := Option.bind_eq_some_iff.mp heq.symm
    have hsource : sourceOf inet frame = some ip := by
      rw [sourceOf, hprotocol, Option.bind_some, if_neg hdst.2, hip]
    cases hlookup : table.lookup ip with
    | none =>
      refine .inr ⟨fun _ ip' hip' => ?_, ?_⟩
      · rw [← Option.some.inj (hsource.symm.trans hip'), hlookup]
      · rw [hround, ← hanswer, answer_of_none hlookup]
    | some int =>
      obtain ⟨mac, rfl⟩ := hvalues.lookup hlookup
      have hlen := h.header
      exact .inl ⟨ip, mac, hdst.1, hsource, hlookup,
        by rw [hround, ← hanswer, answer_of_some hlookup (by omega)]⟩
  · have hzero (hd : frame.take 6 = src_mac.toList) : protocol = 0 :=
      not_not.mp fun hne => hdst ⟨hd, hne⟩
    refine .inr ⟨fun hd ip hip => ?_, round_of_ne h.header fun hd => by rw [hprotocol, hzero hd]⟩
    rw [sourceOf, hprotocol, Option.bind_some, if_pos (hzero hd)] at hip
    cases hip

/-- A packet that is left alone in every further round. -/
def Resting (inet : ICMPv6.Inet) (table : PoisonTable) (src_mac : Mac) (buffer : Frame) : Prop :=
  round inet table src_mac buffer = some (buffer, none)

/-- No device has the interceptor's own MAC address. -/
def Foreign (table : PoisonTable) (src_mac : Mac) : Prop := ∀ e ∈ table, e.2 ≠ MacBinToInt src_mac

/-- After a round the packet is left alone: a frame that has been sent on is not for the interceptor
any more. -/
theorem round_resting (inet : ICMPv6.Inet) (hvalues : Values table)
    (hforeign : Foreign table src_mac) (h : Readable src_mac frame) :
    ∃ buffer, Resting inet table src_mac buffer ∧
      round inet table src_mac frame = some (buffer, forward inet table src_mac frame) := by
  rcases round_cases inet hvalues h with ⟨ip, mac, -, -, hlookup, hround⟩ | ⟨-, hround⟩
  · have hout : forward inet table src_mac frame =
        some (mac.toList ++ src_mac.toList ++ frame.drop 12) := by rw [forward, hround]; rfl
    refine ⟨_, round_of_ne ?_ ?_, by rw [hround, hout]⟩
    · have hlen := h.header
      simp
      omega
    · intro hdst
      rw [List.append_assoc, List.take_left' mac.length_toList, Vector.toList_inj] at hdst
      obtain ⟨l₁, l₂, rfl, -⟩ := List.lookup_eq_some_iff.mp hlookup
      exact absurd (congrArg MacBinToInt hdst) (hforeign (ip, MacBinToInt mac) (by simp))
  · exact ⟨frame, hround, by rw [forward, hround]; rfl⟩

/-! ## Runs -/

/-- From a packet that is left alone, the loop sends on every frame that it receives, once and in
order, as long as it can read them. -/
theorem run_of_resting (hvalues : Values table) (hforeign : Foreign table src_mac)
    {buffer : Frame} (hbuffer : Resting inet table src_mac buffer) (events : List Event) :
    ((run inet table src_mac buffer events).isSome ↔
      ∀ frame ∈ frames events, Readable src_mac frame) ∧
    ∀ outs, run inet table src_mac buffer events = some outs →
      outs = (frames events).filterMap (forward inet table src_mac) := by
  induction events generalizing buffer with
  | nil => exact ⟨iff_of_true rfl nofun, fun outs h => (Option.some.inj h).symm⟩
  | cons event events ih =>
    cases event with
    | timeout =>
      rw [run, recvPacket, hbuffer, Option.bind_some]
      dsimp only
      rw [Option.isSome_map]
      refine ⟨(ih hbuffer).1, fun outs h => ?_⟩
      obtain ⟨rest, hrest, rfl⟩ := Option.map_eq_some_iff.mp h
      exact (ih hbuffer).2 rest hrest
    | frame data =>
      have hframes : frames (.frame data :: events) = data :: frames events := rfl
      rw [run, recvPacket, hframes, List.forall_mem_cons, List.filterMap_cons]
      cases hread : round inet table src_mac data with
      | none =>
        have hnot : ¬Readable src_mac data := fun h => by
          have hsome := (isSome_round inet table).mpr h
          rw [hread] at hsome
          cases hsome
        exact ⟨iff_of_false Bool.false_ne_true fun h => hnot h.1, nofun⟩
      | some result =>
        have hreadable : Readable src_mac data := (isSome_round inet table).mp (by rw [hread]; rfl)
        obtain ⟨buffer', hresting, hround⟩ := round_resting inet hvalues hforeign hreadable
        obtain rfl := Option.some.inj (hread.symm.trans hround)
        rw [Option.bind_some]
        dsimp only
        rw [Option.isSome_map, (ih hresting).1]
        refine ⟨⟨fun h => ⟨hreadable, h⟩, fun h => h.2⟩, fun outs h => ?_⟩
        obtain ⟨rest, hrest, rfl⟩ := Option.map_eq_some_iff.mp h
        rw [(ih hresting).2 rest hrest]
        cases forward inet table src_mac data with
        | none => rfl
        | some out => rfl

/-- The first packet is empty: it has to be a frame before the first timeout. -/
theorem run_start (hvalues : Values table) (hforeign : Foreign table src_mac) {events : List Event} :
    ((run inet table src_mac [] events).isSome ↔
      events.head?.all (fun e => e matches .frame _) ∧
        ∀ frame ∈ frames events, Readable src_mac frame) ∧
    ∀ outs, run inet table src_mac [] events = some outs →
      outs = (frames events).filterMap (forward inet table src_mac) := by
  cases events with
  | nil => exact ⟨iff_of_true rfl ⟨rfl, nofun⟩, fun outs h => (Option.some.inj h).symm⟩
  | cons event events =>
    cases event with
    | timeout =>
      exact ⟨iff_of_false Bool.false_ne_true fun h => Bool.false_ne_true h.1, nofun⟩
    | frame data =>
      -- the loop does not look at the packet before the frame
      have hresting : Resting inet table src_mac (List.replicate 14 0) :=
        round_of_ne (Nat.le_refl 14) fun _ => rfl
      have hrun := run_of_resting hvalues hforeign hresting (.frame data :: events)
      have hsame : run inet table src_mac [] (.frame data :: events) =
          run inet table src_mac (List.replicate 14 0) (.frame data :: events) := rfl
      rw [hsame]
      exact ⟨hrun.1.trans ⟨fun h => ⟨rfl, h⟩, fun h => h.2⟩, hrun.2⟩

/-! ## The table -/

/-- The entries that a loop adds are those of its passes. -/
theorem exists_foldlM {α γ : Type} {f : List γ → α → Option (List γ)} {N : α → γ → Prop}
    {l : List α} (h : ∀ x ∈ l, ∀ t, ∃ t', f t x = some t' ∧ ∀ e, e ∈ t' ↔ e ∈ t ∨ N x e)
    (t : List γ) : ∃ t', l.foldlM f t = some t' ∧ ∀ e, e ∈ t' ↔ e ∈ t ∨ ∃ x ∈ l, N x e := by
  induction l generalizing t with
  | nil => exact ⟨t, rfl, fun e => by simp⟩
  | cons x l ih =>
    rw [List.forall_mem_cons] at h
    obtain ⟨t₁, ht₁, hmem₁⟩ := h.1 t
    obtain ⟨t₂, ht₂, hmem₂⟩ := ih h.2 t₁
    refine ⟨t₂, ?_, fun e => ?_⟩
    · rw [List.foldlM_cons, ht₁]
      exact ht₂
    · rw [hmem₂, hmem₁, List.exists_mem_cons_iff, or_assoc]

/-- The entry for an address of a device. -/
def IsEntry (parseTable : ScanTable) (e : Str × UInt64) : Prop :=
  ∃ a b mac, Paired parseTable a b ∧ MACtoBin a.1 = some mac ∧
    (∃ ip ∈ b.2.addresses, ip.address = e.1) ∧ e.2 = MacBinToInt mac

theorem exists_constructPoisonTable (parseTable : ScanTable)
    (hmac : ∀ row ∈ parseTable.rows, row.2.group ≠ [] → ∃ mac, MACtoBin row.1 = some mac) :
    ∃ table, constructPoisonTable parseTable = some table ∧
      ∀ e, e ∈ table ↔ IsEntry parseTable e := by
  have haddress {mac : Str} {bin : Mac} (hbin : MACtoBin mac = some bin) (ip : IpAddress)
      (t : PoisonTable) : ∃ t', addAddress mac t ip = some t' ∧
        ∀ e, e ∈ t' ↔ e ∈ t ∨ e = (ip.address, MacBinToInt bin) := by
    refine ⟨(ip.address, MacBinToInt bin) :: t, ?_, fun e => by rw [List.mem_cons, or_comm]⟩
    rw [addAddress, MACToInt, hbin, Option.map_some, Option.map_some]
  have hpair {mac : Str × MacProperties} {bin : Mac} (hbin : MACtoBin mac.1 = some bin)
      (cmp_mac : Str × MacProperties) (t : PoisonTable) :
      ∃ t', addPair mac t cmp_mac = some t' ∧ ∀ e, e ∈ t' ↔ e ∈ t ∨
        ((mac.1 ≠ cmp_mac.1 ∧ mac.2.group = cmp_mac.2.group) ∧
          ∃ ip ∈ cmp_mac.2.addresses, e = (ip.address, MacBinToInt bin)) := by
    rw [addPair]
    split
    next h =>
      obtain ⟨t', ht', hmem⟩ := exists_foldlM (fun ip _ t => haddress hbin ip t) t
      exact ⟨t', ht', fun e => by rw [hmem, and_iff_right h]⟩
    next h => exact ⟨t, rfl, fun e => by rw [or_iff_left fun hand => h hand.1]⟩
  obtain ⟨table, htable, hmem⟩ := exists_foldlM (f := addDevice parseTable) (l := parseTable.rows)
    (N := fun mac e => mac.2.group ≠ [] ∧ ∃ cmp_mac ∈ parseTable.rows,
      (mac.1 ≠ cmp_mac.1 ∧ mac.2.group = cmp_mac.2.group) ∧
        ∃ ip ∈ cmp_mac.2.addresses, ∃ bin, MACtoBin mac.1 = some bin ∧
          e = (ip.address, MacBinToInt bin)) (by
    intro mac hrow t
    rw [addDevice]
    split
    next h => exact ⟨t, rfl, fun e => by rw [or_iff_left fun hand => hand.1 h]⟩
    next h =>
      obtain ⟨bin, hbin⟩ := hmac mac hrow h
      obtain ⟨t', ht', hmem⟩ := exists_foldlM (l := parseTable.rows)
        (fun cmp_mac _ t => hpair hbin cmp_mac t) t
      refine ⟨t', ht', fun e => ?_⟩
      rw [hmem, and_iff_right h]
      simp only [hbin, Option.some.injEq, exists_eq_left']) []
  refine ⟨table, htable, fun e => ?_⟩
  rw [hmem, or_iff_right List.not_mem_nil]
  constructor
  · rintro ⟨a, ha, hgrouped, b, hb, hpair, ip, hip, mac, hmac, rfl⟩
    exact ⟨a, b, mac, ⟨ha, hb, hpair.1, hpair.2, hgrouped⟩, hmac, ⟨ip, hip, rfl⟩, rfl⟩
  · rintro ⟨a, b, mac, hpaired, hmac, ⟨ip, hip, hkey⟩, hvalue⟩
    exact ⟨a, hpaired.left, hpaired.grouped, b, hpaired.right, ⟨hpaired.ne, hpaired.group⟩, ip, hip,
      mac, hmac, Prod.ext hkey.symm hvalue⟩

variable {parseTable : ScanTable}

theorem values_of_entries (h : ∀ e ∈ table, IsEntry parseTable e) : Values table := by
  intro e he
  obtain ⟨a, b, mac, -, -, -, hvalue⟩ := h e he
  exact ⟨mac, hvalue⟩

/-- The partner whose MAC address the table has for a text. -/
theorem exists_partner (h : ∀ e ∈ table, IsEntry parseTable e) {ip : Str} {mac : Mac}
    (hlookup : table.lookup ip = some (MacBinToInt mac)) :
    ∃ a b, Paired parseTable a b ∧ MACtoBin a.1 = some mac ∧
      ∃ x ∈ b.2.addresses, x.address = ip := by
  obtain ⟨l₁, l₂, rfl, -⟩ := List.lookup_eq_some_iff.mp hlookup
  obtain ⟨a, b, mac', hpaired, hmac, hip, hvalue⟩ := h (ip, MacBinToInt mac) (by simp)
  rw [MacBinToInt_injective hvalue]
  exact ⟨a, b, hpaired, hmac, hip⟩

/-- Every frame that is received is sent on at most once, in order and whatever the timeouts: with the
MAC address of a partner of its source and the interceptor's own, and otherwise unchanged. A frame
for the interceptor is left out only if no device of a group has its source address. -/
theorem run_forwards (inet : ICMPv6.Inet) (src_mac : Mac) (parseTable : ScanTable)
    (hmac : ∀ row ∈ parseTable.rows, row.2.group ≠ [] → 12 ≤ row.1.length)
    (hforeign : ∀ row ∈ parseTable.rows, row.2.group ≠ [] → MACtoBin row.1 ≠ some src_mac) :
    ∃ table, constructPoisonTable parseTable = some table ∧
      (∀ events, ((run inet table src_mac [] events).isSome ↔
          events.head?.all (fun e => e matches .frame _) ∧
            ∀ frame ∈ frames events, Readable src_mac frame) ∧
        ∀ outs, run inet table src_mac [] events = some outs →
          outs = (frames events).filterMap (forward inet table src_mac)) ∧
      ∀ frame, Readable src_mac frame →
        (∀ out, forward inet table src_mac frame = some out →
          frame.take 6 = src_mac.toList ∧ ∃ a b mac, Paired parseTable a b ∧
            MACtoBin a.1 = some mac ∧
            (∃ x ∈ b.2.addresses, sourceOf inet frame = some x.address) ∧
            out = mac.toList ++ src_mac.toList ++ frame.drop 12) ∧
        (forward inet table src_mac frame = none → frame.take 6 = src_mac.toList →
          ∀ a b, Paired parseTable a b → ∀ x ∈ b.2.addresses,
            sourceOf inet frame ≠ some x.address) := by
  obtain ⟨table, htable, hmem⟩ := exists_constructPoisonTable parseTable
    fun row hrow hgrouped => exists_MACtoBin (hmac row hrow hgrouped)
  have hentries (e) (he : e ∈ table) := (hmem e).mp he
  have hvalues := values_of_entries hentries
  have hself : Foreign table src_mac := by
    intro e he heq
    obtain ⟨a, b, mac, hpaired, hbin, -, hvalue⟩ := hentries e he
    rw [MacBinToInt_injective (hvalue.symm.trans heq)] at hbin
    exact hforeign a hpaired.left hpaired.grouped hbin
  refine ⟨table, htable, fun events => run_start hvalues hself, fun frame hframe => ?_⟩
  rcases round_cases inet hvalues hframe with
    ⟨ip, mac, hdst, hsource, hlookup, hround⟩ | ⟨hnone, hround⟩
  · refine ⟨fun out hout => ⟨hdst, ?_⟩, fun hout => ?_⟩
    · rw [forward, hround] at hout
      obtain ⟨a, b, hpaired, hbin, x, hx, hip⟩ := exists_partner hentries hlookup
      exact ⟨a, b, mac, hpaired, hbin, ⟨x, hx, by rw [hsource, hip]⟩, (Option.some.inj hout).symm⟩
    · rw [forward, hround] at hout
      cases hout
  · refine ⟨fun out hout => ?_, fun _ hdst a b hpaired x hx hsource => ?_⟩
    · rw [forward, hround] at hout
      cases hout
    · obtain ⟨mac, hbin⟩ := exists_MACtoBin (hmac a hpaired.left hpaired.grouped)
      have hentry := (hmem (x.address, MacBinToInt mac)).mpr
        ⟨a, b, mac, hpaired, hbin, ⟨x, hx, rfl⟩, rfl⟩
      have hlookup := List.lookup_eq_none_iff.mp (hnone hdst _ hsource) _ hentry
      exact absurd hlookup (by simp)

/-- The table of two devices, and an interceptor that is neither. -/
theorem run_forwards_twoDevices : ∃ table, constructPoisonTable twoDevices = some table ∧
    ∀ events, (run twoHosts.toInet table attacker.src_mac [] events).isSome ↔
      events.head?.all (fun e => e matches .frame _) ∧
        ∀ frame ∈ frames events, Readable attacker.src_mac frame := by
  obtain ⟨table, htable, hrun, -⟩ := run_forwards twoHosts.toInet attacker.src_mac twoDevices
    (List.forall_mem_cons.mpr ⟨fun _ => by decide, List.forall_mem_singleton.mpr fun _ => by decide⟩)
    (List.forall_mem_cons.mpr ⟨fun _ => by decide, List.forall_mem_singleton.mpr fun _ => by decide⟩)
  exact ⟨table, htable, fun events => (hrun events).1⟩

/-! ## Both tools -/

/-- The rows that the tools work on can be told apart: no two of them have one MAC address or one
text of an address, and groups have two devices. -/
structure Separate (table : ScanTable) : Prop where
  macs : ∀ a ∈ table.rows, ∀ b ∈ table.rows, a.2.group ≠ [] → b.2.group ≠ [] →
    MACtoBin a.1 = MACtoBin b.1 → a = b
  texts : ∀ a ∈ table.rows, ∀ b ∈ table.rows, a.2.group ≠ [] → b.2.group ≠ [] →
    ∀ x ∈ a.2.addresses, ∀ y ∈ b.2.addresses, x.address = y.address → a = b
  pairs : ∀ a b c, Paired table a b → Paired table a c → b = c

/-- While the spoofer and the interceptor run on one table of pairs, what a device sends to the other
one of its pair reaches it: the sender has its MAC address, or the interceptor sends the frame on to
it. -/
theorem delivered (inet : Inet) (socket : Socket) (protocol : Protocol) (table : ScanTable)
    (hmac : ∀ row ∈ table.rows, row.2.group ≠ [] → 12 ≤ row.1.length)
    (hseparate : Separate table) :
    ∃ plans poison, massRun inet socket protocol table = some plans ∧
      constructPoisonTable table = some poison ∧
      ∀ s, (campaign plans).system.Reachable s → ∀ log, log <+: s.log →
        ∀ a b, Paired table a b → ∀ host dst mac, MACtoBin b.1 = some host →
          cache protocol log host.toList dst = some mac →
            ∀ frame, Readable socket.src_mac frame → frame.take 6 = mac →
              (∃ x ∈ b.2.addresses, sourceOf inet.toInet frame = some x.address) →
                ∃ bin, MACtoBin a.1 = some bin ∧ (mac = bin.toList ∨
                  forward inet.toInet poison socket.src_mac frame =
                    some (bin.toList ++ socket.src_mac.toList ++ frame.drop 12)) := by
  obtain ⟨plans, hplans, hsounds⟩ := exists_massRun inet socket protocol hmac
  obtain ⟨poison, hpoison, hmem⟩ := exists_constructPoisonTable table
    fun row hrow hgrouped => exists_MACtoBin (hmac row hrow hgrouped)
  have hentries (e) (he : e ∈ poison) := (hmem e).mp he
  refine ⟨plans, poison, hplans, hpoison, ?_⟩
  rintro s hs log hlog a b hpaired host dst mac hhost hcache frame hframe hdst ⟨x, hx, hsource⟩
  obtain ⟨bin, hbin⟩ := exists_MACtoBin (hmac a hpaired.left hpaired.grouped)
  refine ⟨bin, hbin, ?_⟩
  -- the cache of `b` tells the attacker's MAC address or that of `a`
  have hlearns {P : Str → List UInt8 → Prop}
      (h : Learns inet protocol table P host.toList dst mac) : P a.1 mac := by
    obtain ⟨b', a', hpaired', hhost', -, hP⟩ := h
    obtain ⟨host', hbin', heq⟩ := Option.map_eq_some_iff.mp hhost'
    rw [Vector.toList_inj.mp heq] at hbin'
    obtain rfl := hseparate.macs b' hpaired'.left b hpaired.right hpaired'.grouped
      hpaired.symm.grouped (hbin'.trans hhost.symm)
    rwa [hseparate.pairs b' a a' hpaired.symm hpaired']
  rcases (hsounds.caches hs).1 log hlog _ _ _ hcache with hlearn | hlearn
  · have hown := hlearns hlearn
    rcases round_cases inet.toInet (values_of_entries hentries) hframe with
      ⟨ip, mac', -, hip, hlookup, hround⟩ | ⟨hnone, -⟩
    · obtain ⟨a', b', hpaired', hbin', y, hy, hyip⟩ := exists_partner hentries hlookup
      obtain rfl := hseparate.texts b' hpaired'.right b hpaired.right hpaired'.symm.grouped
        hpaired.symm.grouped y hy x hx (hyip.trans (Option.some.inj (hip.symm.trans hsource)))
      obtain rfl := hseparate.pairs b' a a' hpaired.symm hpaired'.symm
      obtain rfl := Option.some.inj (hbin.symm.trans hbin')
      exact .inr (by rw [forward, hround]; rfl)
    · have hentry := (hmem (x.address, MacBinToInt bin)).mpr
        ⟨a, b, bin, hpaired, hbin, ⟨x, hx, rfl⟩, rfl⟩
      have hlookup := List.lookup_eq_none_iff.mp (hnone (hdst.trans hown) _ hsource) _ hentry
      exact absurd hlookup (by simp)
  · have hown := hlearns hlearn
    rw [hbin, Option.map_some, Option.some.injEq] at hown
    exact .inl hown.symm

theorem separate_twoDevices : Separate twoDevices where
  macs := by decide
  texts := by decide
  pairs a b c hb hc := by
    have hmem {row : Str × MacProperties} (h : row ∈ twoDevices.rows) :
        row = twoDevices.rows[0] ∨ row = twoDevices.rows[1] := by
      rcases List.mem_cons.mp h with rfl | h
      · exact .inl rfl
      · exact .inr (List.mem_singleton.mp h)
    have hother {row : Str × MacProperties} (h : Paired twoDevices a row) :
        row = if a = twoDevices.rows[0] then twoDevices.rows[1] else twoDevices.rows[0] := by
      split
      next heq =>
        refine (hmem h.right).resolve_left ?_
        rintro rfl
        exact h.ne (congrArg Prod.fst heq)
      next hne =>
        refine (hmem h.right).resolve_right ?_
        rintro rfl
        exact h.ne (congrArg Prod.fst ((hmem h.left).resolve_left hne))
    rw [hother hb, hother hc]

/-- Two devices that talk to each other. -/
theorem delivered_twoDevices :
    ∃ plans poison, massRun twoHosts attacker .ARP twoDevices = some plans ∧
      constructPoisonTable twoDevices = some poison ∧
      ∀ s, (campaign plans).system.Reachable s → ∀ a b, Paired twoDevices a b → ∀ host dst mac,
        MACtoBin b.1 = some host → cache .ARP s.log host.toList dst = some mac →
          ∀ frame, Readable attacker.src_mac frame → frame.take 6 = mac →
            (∃ x ∈ b.2.addresses, sourceOf twoHosts.toInet frame = some x.address) →
              ∃ bin, MACtoBin a.1 = some bin ∧ (mac = bin.toList ∨
                forward twoHosts.toInet poison attacker.src_mac frame =
                  some (bin.toList ++ attacker.src_mac.toList ++ frame.drop 12)) := by
  obtain ⟨plans, poison, hplans, hpoison, hall⟩ := delivered twoHosts attacker .ARP twoDevices
    (List.forall_mem_cons.mpr ⟨fun _ => by decide, List.forall_mem_singleton.mpr fun _ => by decide⟩)
    separate_twoDevices
  exact ⟨plans, poison, hplans, hpoison, fun s hs => hall s hs s.log (List.prefix_refl _)⟩

end Interceptor
