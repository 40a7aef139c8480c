import FitProjects.PDS.Spoofer
import Mathlib.Data.List.ReduceOption

/-! # Caches after spoofing

Whatever the order in which the threads take their turns and whenever the signal comes: hosts learn
only about addresses of devices of their group, and when all threads have ended then every address
that they learned about has the MAC address of its device again. -/

namespace Spoofer

open PDS

/-! ## What hosts learn -/

section
variable {frame : Frame} {host mac src_mac : Mac} {address : List UInt8}

theorem arpEntry_reply (p : Arp) (ip : IPv4) (src_mac : Mac) (dst_ip : IPv4) (dst_mac : Mac) :
    arpEntry (p.reply ip src_mac dst_ip dst_mac).buffer =
      some ⟨dst_mac.toList, ip.toList, src_mac.toList⟩ := by
  have hbuffer : (p.reply ip src_mac dst_ip dst_mac).buffer = dst_mac.toList ++ src_mac.toList ++
      [8, 6, 0, 1, 8, 0, 6, 4, 0, 2] ++ src_mac.toList ++ ip.toList ++ dst_mac.toList ++
        dst_ip.toList := by
    simp only [Arp.reply, Arp.buffer_fillBuffer, ArpHeader.bytes, List.append_assoc]
    rfl
  rw [hbuffer, arpEntry]
  simp [List.drop_append, List.take_append, List.drop_eq_nil_of_le]

theorem ndpEntry_of_sends {src dst : In6Addr} (h : ICMPv6.Sends frame host src_mac src dst
    (ICMPv6.advertMessage src mac)) :
    ndpEntry frame = some ⟨host.toList, src.toList, mac.toList⟩ := by
  obtain ⟨cksum, hlen, rfl, hvalid⟩ := h
  have hsize : (ICMPv6.advertMessage src mac cksum).length = 32 := by
    simp [ICMPv6.advertMessage, hlen]
  have hhtons : (htons 32).length = 2 := rfl
  have hsum : icmpSum (ICMPv6.Datagram.frame ⟨host, src_mac, src, dst,
      ICMPv6.advertMessage src mac cksum⟩) = 256 * 256 - 1 := by
    rw [← hvalid, icmpSum, ICMPv6.Datagram.pseudo, ICMPv6.Datagram.frame, hsize]
    simp [List.drop_append, List.take_append, List.drop_eq_nil_of_le, List.take_of_length_le,
      hhtons]
  rw [ndpEntry, hsum]
  simp [ICMPv6.Datagram.frame, ICMPv6.advertMessage, List.drop_append, List.take_append,
    List.drop_eq_nil_of_le, List.take_of_length_le, hlen, hhtons]

theorem getDstMac_of_take {buffer : List UInt8} (h : buffer.take 6 = host.toList) :
    getDstMac buffer = some (MacBinToInt host) := by
  have hfield := field_append [] host (buffer.drop 6)
  rw [List.nil_append, ← h, List.take_append_drop, List.length_nil] at hfield
  rw [getDstMac, hfield, Option.map_some]

end

/-! ## Packets -/

variable {inet : Inet} {socket : Socket} {protocol : Protocol} {α : Type}
  {modifySrcMac : α → Mac → Option α} {buffer : α → Frame} {group : Group}

/-- One device of the pair and the other one. -/
def Side (group : Group) (a b : Device) : Prop :=
  (a = group.1 ∧ b = group.2) ∨ (a = group.2 ∧ b = group.1)

/-- The frame tells one device of the pair a MAC address for an address of the other one. -/
def Tells (inet : Inet) (protocol : Protocol) (group : Group) (P : Device → Mac → Prop)
    (frame : Frame) : Prop :=
  ∃ a b host mac, Side group a b ∧ MACtoBin a.mac = some host ∧ P b mac ∧
    ∃ ip ∈ b.addresses, ∃ address, addressOf inet protocol ip = some address ∧
      learned protocol frame = some ⟨host.toList, address, mac.toList⟩

/-- A packet that can be made to tell any MAC address. -/
structure Poisons (protocol : Protocol) (modifySrcMac : α → Mac → Option α) (buffer : α → Frame)
    (host : Mac) (address : List UInt8) (src_mac : Mac) (packet : α) : Prop where
  take : (buffer packet).take 6 = host.toList
  learned : learned protocol (buffer packet) = some ⟨host.toList, address, src_mac.toList⟩
  modified : ∀ mac, ∃ packet', modifySrcMac packet mac = some packet' ∧
    Spoofer.learned protocol (buffer packet') = some ⟨host.toList, address, mac.toList⟩

theorem poisons_reply (p : Arp) (ip : IPv4) (src_mac : Mac) (dst_ip : IPv4) (dst_mac : Mac) :
    Poisons .ARP (fun packet mac => some (packet.modifySrcMac mac)) Arp.buffer dst_mac ip.toList
      src_mac (p.reply ip src_mac dst_ip dst_mac) where
  take := by
    simp only [Arp.reply, Arp.buffer_fillBuffer, List.append_assoc]
    exact List.take_left' dst_mac.length_toList
  learned := arpEntry_reply ..
  modified mac := ⟨_, rfl, arpEntry_reply p ip mac dst_ip dst_mac⟩

theorem exists_naAdvert (order : ByteOrder) (p : ICMPv6.Packet) (src_mac dst_mac : Mac)
    {src_ip dst_ip : Str} {src dst : In6Addr} (hsrc : inet.pton src_ip = some src)
    (hdst : inet.pton dst_ip = some dst) :
    ∃ packet, (ICMPv6.naAdvert order inet.toInet p src_mac src_ip dst_mac dst_ip).toOption =
        some packet ∧
      Poisons .NDP (fun packet mac => (ICMPv6.modifySrcMac order inet.toInet packet mac).bind
        Except.toOption) ICMPv6.Packet.buffer dst_mac src.toList src_mac packet := by
  obtain ⟨packet, hpacket, rfl, rfl, htake, hsends⟩ :=
    ICMPv6.naAdvert_of_pton order p src_mac dst_mac hsrc hdst
  refine ⟨packet, by rw [hpacket]; rfl, htake, ndpEntry_of_sends hsends, fun mac => ?_⟩
  obtain ⟨packet', hpacket', hsends'⟩ := ICMPv6.modifySrcMac_of_take order inet.toInet htake mac
  exact ⟨packet', by rw [hpacket']; rfl, ndpEntry_of_sends hsends'⟩

/-- What the packets of a pair tell. -/
def Prepared (inet : Inet) (protocol : Protocol) (modifySrcMac : α → Mac → Option α)
    (buffer : α → Frame) (group : Group) (src_mac : Mac) (packets : List α) : Prop :=
  ∀ packet ∈ packets, ∃ a b host, Side group a b ∧ MACtoBin a.mac = some host ∧
    ∃ ip ∈ b.addresses, ∃ address, addressOf inet protocol ip = some address ∧
      Poisons protocol modifySrcMac buffer host address src_mac packet

theorem exists_MACtoBin {mac : Str} (h : 12 ≤ mac.length) : ∃ bin, MACtoBin mac = some bin := by
  have hbyte (pos : Nat) (hpos : pos ≤ 12) : ∃ b, byteAt mac pos = some b := by
    rw [byteAt, substr, if_pos (by omega)]
    exact ⟨_, rfl⟩
  obtain ⟨b0, h0⟩ := hbyte 0 (by decide)
  obtain ⟨b1, h1⟩ := hbyte 2 (by decide)
  obtain ⟨b2, h2⟩ := hbyte 5 (by decide)
  obtain ⟨b3, h3⟩ := hbyte 7 (by decide)
  obtain ⟨b4, h4⟩ := hbyte 10 (by decide)
  obtain ⟨b5, h5⟩ := hbyte 12 (by decide)
  rw [MACtoBin, h0, h1, h2, h3, h4, h5]
  exact ⟨_, rfl⟩

theorem exists_mapM {β : Type} {f : α → Option β} {R : α → β → Prop} {l : List α}
    (h : ∀ x ∈ l, ∃ y, f x = some y ∧ R x y) :
    ∃ ys, l.mapM f = some ys ∧ (∀ y ∈ ys, ∃ x ∈ l, R x y) ∧ ∀ x ∈ l, ∃ y ∈ ys, R x y := by
  induction l with
  | nil => exact ⟨[], rfl, nofun, nofun⟩
  | cons x l ih =>
    rw [List.forall_mem_cons] at h
    obtain ⟨y, hy, hr⟩ := h.1
    obtain ⟨ys, hys, hleft, hright⟩ := ih h.2
    refine ⟨y :: ys, by rw [List.mapM_cons, hy, hys]; rfl, ?_, ?_⟩
    · refine List.forall_mem_cons.mpr ⟨⟨x, List.mem_cons_self, hr⟩, fun y hy => ?_⟩
      obtain ⟨x, hx, hr⟩ := hleft y hy
      exact ⟨x, List.mem_cons_of_mem _ hx, hr⟩
    · refine List.forall_mem_cons.mpr ⟨⟨y, List.mem_cons_self, hr⟩, fun x hx => ?_⟩
      obtain ⟨y, hy, hr⟩ := hright x hx
      exact ⟨y, List.mem_cons_of_mem _ hy, hr⟩

theorem exists_prepareARPPackets (inet : Inet) (p : Arp) (src_mac : Mac)
    (h1 : MACtoBin group.1.mac = some mac1) (h2 : MACtoBin group.2.mac = some mac2) :
    ∃ packets, prepareARPPackets inet p src_mac group = some packets ∧
      Prepared inet .ARP (fun packet mac => some (packet.modifySrcMac mac)) Arp.buffer group src_mac
        packets := by
  rw [prepareARPPackets, h1, h2]
  split
  next send_ip1 send_ip2 _ _ =>
    refine ⟨_, rfl, ?_⟩
    intro packet hpacket
    rcases List.mem_append.mp hpacket with hpacket | hpacket
    · obtain ⟨a, ha, rfl⟩ := List.mem_map.mp hpacket
      obtain ⟨ip, hip, ha⟩ := List.mem_filterMap.mp ha
      exact ⟨_, _, _, .inr ⟨rfl, rfl⟩, h2, ip, hip, _, by rw [addressOf, ha]; rfl,
        poisons_reply ..⟩
    · obtain ⟨a, ha, rfl⟩ := List.mem_map.mp hpacket
      obtain ⟨ip, hip, ha⟩ := List.mem_filterMap.mp ha
      exact ⟨_, _, _, .inl ⟨rfl, rfl⟩, h1, ip, hip, _, by rw [addressOf, ha]; rfl,
        poisons_reply ..⟩
  next => exact ⟨[], rfl, nofun⟩

theorem pton_of_sender6 {ip : IpAddress} (h : (sender6 inet ip).isSome) :
    ∃ a, sender6 inet ip = some a ∧ inet.pton ip.address = some a := by
  obtain ⟨a, ha⟩ := Option.isSome_iff_exists.mp h
  refine ⟨a, ha, ?_⟩
  rw [sender6] at ha
  split at ha
  · cases ha
  · obtain ⟨bin, hbin, ha⟩ := Option.bind_eq_some_iff.mp ha
    rw [Sum.getRight?_eq_some_iff] at ha
    subst ha
    rw [IPToBin] at hbin
    split at hbin
    · cases hbin
    · obtain ⟨a', ha', heq⟩ := Option.map_eq_some_iff.mp hbin
      rwa [Sum.inr.inj heq] at ha'

theorem exists_adverts (order : ByteOrder) (p : ICMPv6.Packet) (src_mac : Mac)
    (addresses : List IpAddress) (dst_mac : Mac) {dst : IpAddress}
    (hdst : (sender6 inet dst).isSome) :
    ∃ packets, adverts inet order p src_mac addresses dst_mac dst.address = some packets ∧
      ∀ packet ∈ packets, ∃ ip ∈ addresses, ∃ address, addressOf inet .NDP ip = some address ∧
        Poisons .NDP (fun packet mac => (ICMPv6.modifySrcMac order inet.toInet packet mac).bind
          Except.toOption) ICMPv6.Packet.buffer dst_mac address src_mac packet := by
  obtain ⟨_, -, hpton⟩ := pton_of_sender6 hdst
  obtain ⟨packets, hpackets, hall, -⟩ := exists_mapM
    (f := fun ip => (ICMPv6.naAdvert order inet.toInet p src_mac ip.address dst_mac
      dst.address).toOption)
    (l := addresses.filter fun ip => (sender6 inet ip).isSome)
    (R := fun ip packet => ip ∈ addresses ∧ ∃ address, addressOf inet .NDP ip = some address ∧
      Poisons .NDP (fun packet mac => (ICMPv6.modifySrcMac order inet.toInet packet mac).bind
        Except.toOption) ICMPv6.Packet.buffer dst_mac address src_mac packet) (by
    intro ip hip
    obtain ⟨hmem, hsome⟩ := List.mem_filter.mp hip
    obtain ⟨a, ha, hsrc⟩ := pton_of_sender6 hsome
    obtain ⟨packet, hpacket, hpoisons⟩ := exists_naAdvert order p src_mac dst_mac hsrc hpton
    exact ⟨packet, hpacket, hmem, _, by rw [addressOf, ha]; rfl, hpoisons⟩)
  refine ⟨packets, hpackets, fun packet hpacket => ?_⟩
  obtain ⟨ip, -, hip, h⟩ := hall packet hpacket
  exact ⟨ip, hip, h⟩

theorem exists_prepareNDPPackets (inet : Inet) (order : ByteOrder) (p : ICMPv6.Packet) (src_mac : Mac)
    (h1 : MACtoBin group.1.mac = some mac1) (h2 : MACtoBin group.2.mac = some mac2) :
    ∃ packets, prepareNDPPackets inet order p src_mac group = some packets ∧
      Prepared inet .NDP (fun packet mac => (ICMPv6.modifySrcMac order inet.toInet packet mac).bind
        Except.toOption) ICMPv6.Packet.buffer group src_mac packets := by
  rw [prepareNDPPackets, h1, h2]
  split
  next send_ip1 send_ip2 hsend1 hsend2 =>
    have hsome1 := List.find?_some hsend1
    have hsome2 := List.find?_some hsend2
    obtain ⟨first, hfirst, hall1⟩ := exists_adverts order p src_mac group.1.addresses mac2 hsome2
    obtain ⟨second, hsecond, hall2⟩ := exists_adverts order p src_mac group.2.addresses mac1 hsome1
    refine ⟨first ++ second, ?_, ?_⟩
    · rw [Option.bind_some, hfirst, Option.bind_some, Option.bind_some, hsecond, Option.map_some]
    · intro packet hpacket
      rcases List.mem_append.mp hpacket with hpacket | hpacket
      · exact ⟨_, _, _, .inr ⟨rfl, rfl⟩, h2, hall1 packet hpacket⟩
      · exact ⟨_, _, _, .inl ⟨rfl, rfl⟩, h1, hall2 packet hpacket⟩
  next => exact ⟨[], rfl, nofun⟩

/-! ## Threads -/

/-- A thread tells the attacker's MAC address for addresses of the other device, and afterwards the
right ones for the same addresses. -/
structure Sound (inet : Inet) (protocol : Protocol) (group : Group) (src_mac : Mac)
    (plan : List Frame × List Frame) : Prop where
  rounds : ∀ e ∈ plan.1, Tells inet protocol group (fun _ mac => mac = src_mac) e
  closing : ∀ e ∈ plan.2, Tells inet protocol group (fun b mac => MACtoBin b.mac = some mac) e
  closed : ∀ e ∈ plan.1, ∃ e' ∈ plan.2, place protocol e' = place protocol e

theorem exists_restored {packet : α} {a b : Device} (h1 : MACtoBin group.1.mac = some mac1)
    (h2 : MACtoBin group.2.mac = some mac2) (hside : Side group a b)
    (hhost : MACtoBin a.mac = some host)
    (h : Poisons protocol modifySrcMac buffer host address src_mac packet) :
    ∃ packet' mac, restored modifySrcMac buffer group mac1 mac2 packet = some (some packet') ∧
      MACtoBin b.mac = some mac ∧
      learned protocol (buffer packet') = some ⟨host.toList, address, mac.toList⟩ := by
  have hint {mac : Str} {bin : Mac} (h : MACtoBin mac = some bin) :
      MACToInt mac = some (MacBinToInt bin) := by rw [MACToInt, h, Option.map_some]
  rw [restored, getDstMac_of_take h.take, hint h1, hint h2, Option.bind_some, Option.bind_some]
  rcases hside with ⟨rfl, rfl⟩ | ⟨rfl, rfl⟩
  · obtain rfl := Option.some.inj (h1.symm.trans hhost)
    obtain ⟨packet', hpacket', hlearned⟩ := h.modified mac2
    exact ⟨packet', mac2, by rw [if_pos rfl, hpacket', Option.map_some], h2, hlearned⟩
  · obtain rfl := Option.some.inj (h2.symm.trans hhost)
    split
    next heq =>
      -- two texts of one MAC address
      obtain rfl := MacBinToInt_injective heq
      obtain ⟨packet', hpacket', hlearned⟩ := h.modified mac2
      exact ⟨packet', mac2, by rw [hpacket', Option.map_some], h1, hlearned⟩
    next =>
      obtain ⟨packet', hpacket', hlearned⟩ := h.modified mac1
      exact ⟨packet', mac1, by rw [Option.bind_some, if_pos rfl, hpacket', Option.map_some], h1,
        hlearned⟩

theorem exists_massRunWith {packets : List α} {src_mac : Mac}
    (h1 : MACtoBin group.1.mac = some mac1) (h2 : MACtoBin group.2.mac = some mac2)
    (h : Prepared inet protocol modifySrcMac buffer group src_mac packets) :
    ∃ plan, massRunWith modifySrcMac buffer group packets = some plan ∧
      Sound inet protocol group src_mac plan := by
  rw [massRunWith]
  split
  next => exact ⟨_, rfl, nofun, nofun, nofun⟩
  next =>
    obtain ⟨last, hlast, hleft, hright⟩ := exists_mapM
      (f := restored modifySrcMac buffer group mac1 mac2) (l := packets)
      (R := fun packet result => ∃ packet', result = some packet' ∧
        Tells inet protocol group (fun b mac => MACtoBin b.mac = some mac) (buffer packet') ∧
        place protocol (buffer packet') = place protocol (buffer packet)) (by
      intro packet hpacket
      obtain ⟨a, b, host, hside, hhost, ip, hip, address, haddress, hpoisons⟩ := h packet hpacket
      obtain ⟨packet', mac, hrestored, hmac, hlearned⟩ :=
        exists_restored h1 h2 hside hhost hpoisons
      exact ⟨_, hrestored, packet', rfl,
        ⟨a, b, host, mac, hside, hhost, hmac, ip, hip, address, haddress, hlearned⟩,
        by rw [place, place, hlearned, hpoisons.learned]; rfl⟩)
    refine ⟨_, by rw [h1, h2, Option.bind_some, Option.bind_some, hlast, Option.map_some], ?_, ?_, ?_⟩
    · intro e he
      obtain ⟨packet, hpacket, rfl⟩ := List.mem_map.mp he
      obtain ⟨a, b, host, hside, hhost, ip, hip, address, haddress, hpoisons⟩ := h packet hpacket
      exact ⟨a, b, host, src_mac, hside, hhost, rfl, ip, hip, address, haddress, hpoisons.learned⟩
    · intro e he
      obtain ⟨packet', hpacket', rfl⟩ := List.mem_map.mp he
      obtain ⟨packet, -, packet'', heq, htells, -⟩ := hleft _ (List.reduceOption_mem_iff.mp hpacket')
      obtain rfl := Option.some.inj heq
      exact htells
    · intro e he
      obtain ⟨packet, hpacket, rfl⟩ := List.mem_map.mp he
      obtain ⟨_, hmem, packet', rfl, -, hplace⟩ := hright packet hpacket
      exact ⟨_, List.mem_map_of_mem (List.reduceOption_mem_iff.mpr hmem), hplace⟩

theorem exists_thread (inet : Inet) (socket : Socket) (protocol : Protocol) (group : Group)
    (h1 : 12 ≤ group.1.mac.length) (h2 : 12 ≤ group.2.mac.length) :
    ∃ plan, thread inet socket protocol group = some plan ∧
      Sound inet protocol group socket.src_mac plan := by
  obtain ⟨mac1, hmac1⟩ := exists_MACtoBin h1
  obtain ⟨mac2, hmac2⟩ := exists_MACtoBin h2
  cases protocol with
  | ARP =>
    obtain ⟨packets, hpackets, hprepared⟩ :=
      exists_prepareARPPackets inet socket.arp socket.src_mac hmac1 hmac2
    rw [thread, massRunARP, hpackets]
    exact exists_massRunWith hmac1 hmac2 hprepared
  | NDP =>
    obtain ⟨packets, hpackets, hprepared⟩ := exists_prepareNDPPackets inet socket.order
      socket.icmpv6 socket.src_mac hmac1 hmac2
    rw [thread, massRunNDP, hpackets]
    exact exists_massRunWith hmac1 hmac2 hprepared

/-! ## Pairs -/

/-- The device of a row of the table. -/
def deviceOf (row : Str × MacProperties) : Device := ⟨row.1, row.2.addresses⟩

/-- The pair is one of two rows. -/
def OfRows (table : ScanTable) (group : Group) : Prop :=
  ∃ a b, Paired table a b ∧ group = (deviceOf a, deviceOf b)

variable {table : ScanTable}

theorem Paired.symm {a b : Str × MacProperties} (h : Paired table a b) : Paired table b a :=
  ⟨h.right, h.left, h.ne.symm, h.group.symm, h.group ▸ h.grouped⟩

theorem ofRows_foldl {mac : Str × MacProperties} {rows : List (Str × MacProperties)}
    {state : List Group × List Str} (hmac : mac ∈ table.rows) (hgrouped : mac.2.group ≠ [])
    (hrows : rows ⊆ table.rows) (h : ∀ g ∈ state.1, OfRows table g) :
    ∀ g ∈ (rows.foldl (pairUp mac) state).1, OfRows table g := by
  induction rows generalizing state with
  | nil => exact h
  | cons cmp_mac rows ih =>
    refine ih (fun _ hr => hrows (List.mem_cons_of_mem _ hr)) ?_
    rw [pairUp]
    split
    next hpair =>
      intro g hg
      rcases List.mem_append.mp hg with hg | hg
      · exact h g hg
      · exact ⟨mac, cmp_mac, ⟨hmac, hrows List.mem_cons_self, hpair.1, hpair.2, hgrouped⟩,
          List.mem_singleton.mp hg⟩
    next => exact h

/-- `main` pairs devices of one group only. -/
theorem ofRows_devices {g : Group} (hg : g ∈ devices table) : OfRows table g := by
  have hloop (rows : List (Str × MacProperties)) (hrows : rows ⊆ table.rows)
      (state : List Group × List Str) (h : ∀ g ∈ state.1, OfRows table g) :
      ∀ g ∈ (rows.foldl (fun state mac =>
        if mac.2.group = [] then state
        else if state.2.contains mac.1 then state
        else table.rows.foldl (pairUp mac) state) state).1, OfRows table g := by
    induction rows generalizing state with
    | nil => exact h
    | cons mac rows ih =>
      refine ih (fun _ hr => hrows (List.mem_cons_of_mem _ hr)) _ ?_
      dsimp only
      split
      next => exact h
      next hgrouped =>
        split
        next => exact h
        next => exact ofRows_foldl (hrows List.mem_cons_self) hgrouped (List.Subset.refl _) h
  exact hloop table.rows (List.Subset.refl _) ([], []) (List.forall_mem_nil _) g hg

/-! ## Caches -/

theorem cache_eq_some {log : List Frame} {host address mac : List UInt8}
    (h : cache protocol log host address = some mac) :
    ∃ e, Campaign.last (place protocol) log (some (host, address)) = some e ∧ e ∈ log ∧
      learned protocol e = some ⟨host, address, mac⟩ := by
  obtain ⟨entry, hentry, rfl⟩ := Option.map_eq_some_iff.mp h
  obtain ⟨e, hlast, hlearned⟩ := Option.bind_eq_some_iff.mp hentry
  obtain ⟨hmem, hplace⟩ := Campaign.last_eq_some hlast
  refine ⟨e, hlast, hmem, ?_⟩
  rw [place, hlearned, Option.map_some, Option.some.injEq, Prod.mk.injEq] at hplace
  rw [hlearned, ← hplace.1, ← hplace.2]

/-- What holds of all caches of a campaign follows from what its messages say. -/
theorem caches_restored {n : Nat} {C : Campaign n Frame} {A R : List UInt8 → List UInt8 →
    List UInt8 → Prop} (hcloses : C.Closes (place protocol))
    (hrounds : ∀ i, ∀ e ∈ C.rounds i, ∀ host address mac,
      learned protocol e = some ⟨host, address, mac⟩ → A host address mac)
    (hclosing : ∀ e, C.Closing e → ∀ host address mac,
      learned protocol e = some ⟨host, address, mac⟩ → R host address mac)
    {s : Campaign.State n Frame} (hs : C.system.Reachable s) :
    (∀ log, log <+: s.log → ∀ host address mac, cache protocol log host address = some mac →
      A host address mac ∨ R host address mac) ∧
    (s.finished → ∀ host address mac, cache protocol s.log host address = some mac →
      R host address mac) ∧
    (s.signaled → ∀ l s', .signal ∉ l → C.system.runs s l = some s' → C.rank s ≤ l.length →
      s'.finished) := by
  refine ⟨?_, ?_, ?_⟩
  · intro log hlog host address mac hcache
    obtain ⟨e, -, hmem, hlearned⟩ := cache_eq_some hcache
    rcases (Campaign.inv_of_reachable hcloses hs).sent e (hlog.subset hmem) with he | ⟨i, he⟩
    · exact .inr (hclosing e he _ _ _ hlearned)
    · exact .inl (hrounds i e he _ _ _ hlearned)
  · intro hfin host address mac hcache
    obtain ⟨e, hlast, -, hlearned⟩ := cache_eq_some hcache
    exact hclosing e (Campaign.closing_of_finished hcloses hs hfin hlast) _ _ _ hlearned
  · intro hsignaled l s' hl hruns hlen
    exact Campaign.finished_of_rank hsignaled hl hruns hlen

/-- A host of the table takes a MAC address that meets `P` for an address of another device of its
group. -/
def Learns (inet : Inet) (protocol : Protocol) (table : ScanTable) (P : Str → List UInt8 → Prop)
    (host address mac : List UInt8) : Prop :=
  ∃ a b, Paired table a b ∧ (MACtoBin a.1).map Vector.toList = some host ∧
    Has inet protocol b address ∧ P b.1 mac

theorem learns_of_tells {P : Device → Mac → Prop} {Q : Str → List UInt8 → Prop} {e : Frame}
    {host address mac : List UInt8} (hgroup : OfRows table group)
    (hPQ : ∀ b bin, P b bin → Q b.mac bin.toList) (h : Tells inet protocol group P e)
    (hlearned : learned protocol e = some ⟨host, address, mac⟩) :
    Learns inet protocol table Q host address mac := by
  obtain ⟨row1, row2, hpaired, rfl⟩ := hgroup
  obtain ⟨a, b, host', mac', hside, hhost, hmac, ip, hip, address', haddress, hlearned'⟩ := h
  rw [hlearned', Option.some.injEq, Entry.mk.injEq] at hlearned
  obtain ⟨rfl, rfl, rfl⟩ := hlearned
  rcases hside with ⟨rfl, rfl⟩ | ⟨rfl, rfl⟩
  · exact ⟨row1, row2, hpaired, congrArg _ hhost, ⟨ip, hip, haddress⟩, hPQ _ _ hmac⟩
  · exact ⟨row2, row1, hpaired.symm, congrArg _ hhost, ⟨ip, hip, haddress⟩, hPQ _ _ hmac⟩

/-- Every thread of a campaign is sound for a pair of the table. -/
def Sounds (inet : Inet) (socket : Socket) (protocol : Protocol) (table : ScanTable)
    (plans : List (List Frame × List Frame)) : Prop :=
  ∀ plan ∈ plans, ∃ group, OfRows table group ∧ Sound inet protocol group socket.src_mac plan

/-- The threads of all pairs. -/
theorem exists_massRun (inet : Inet) (socket : Socket) (protocol : Protocol)
    (hmac : ∀ row ∈ table.rows, row.2.group ≠ [] → 12 ≤ row.1.length) :
    ∃ plans, massRun inet socket protocol table = some plans ∧
      Sounds inet socket protocol table plans := by
  obtain ⟨plans, hplans, hleft, -⟩ := exists_mapM (f := thread inet socket protocol)
    (l := devices table) (R := fun group plan => OfRows table group ∧
      Sound inet protocol group socket.src_mac plan) (by
    intro group hgroup
    have hrows := ofRows_devices hgroup
    obtain ⟨a, b, hpaired, rfl⟩ := hrows
    obtain ⟨plan, hplan, hsound⟩ := exists_thread inet socket protocol (deviceOf a, deviceOf b)
      (hmac a hpaired.left hpaired.grouped) (hmac b hpaired.right hpaired.symm.grouped)
    exact ⟨plan, hplan, ofRows_devices hgroup, hsound⟩)
  exact ⟨plans, hplans, fun plan hplan =>
    let ⟨group, _, h⟩ := hleft plan hplan
    ⟨group, h⟩⟩

/-- The caches while the threads of sound plans run. -/
theorem Sounds.caches {plans : List (List Frame × List Frame)}
    (h : Sounds inet socket protocol table plans) {s : Campaign.State plans.length Frame}
    (hs : (campaign plans).system.Reachable s) :
    (∀ log, log <+: s.log → ∀ host address mac, cache protocol log host address = some mac →
      Learns inet protocol table (fun _ mac => mac = socket.src_mac.toList) host address mac ∨
      Learns inet protocol table (fun owner mac =>
        (MACtoBin owner).map Vector.toList = some mac) host address mac) ∧
    (s.finished → ∀ host address mac, cache protocol s.log host address = some mac →
      Learns inet protocol table (fun owner mac =>
        (MACtoBin owner).map Vector.toList = some mac) host address mac) ∧
    (s.signaled → ∀ l s', .signal ∉ l → (campaign plans).system.runs s l = some s' →
      (campaign plans).rank s ≤ l.length → s'.finished) := by
  have hsound (i : Fin plans.length) := h plans[i] (List.getElem_mem _)
  refine caches_restored ⟨?_⟩ ?_ ?_ hs
  · intro i e he
    obtain ⟨group, -, hplan⟩ := hsound i
    obtain ⟨e', he', hplace⟩ := hplan.closed e he
    exact ⟨e', List.mem_append_left _ he', hplace⟩
  · intro i e he host address mac hlearned
    obtain ⟨group, hgroup, hplan⟩ := hsound i
    exact learns_of_tells hgroup (fun _ _ h => congrArg _ h) (hplan.rounds e he) hlearned
  · rintro e (⟨i, he⟩ | he) host address mac hlearned
    · obtain ⟨group, hgroup, hplan⟩ := hsound i
      exact learns_of_tells hgroup (fun _ _ h => congrArg _ h) (hplan.closing e he) hlearned
    · cases he

/-- Whenever the signal comes and whatever the order of the threads: hosts learn nothing but the
attacker's or the right MAC address for addresses of their group, at the end they have the right
ones, and after the signal the end comes. -/
theorem massRun_restores (inet : Inet) (socket : Socket) (protocol : Protocol) (table : ScanTable)
    (hmac : ∀ row ∈ table.rows, row.2.group ≠ [] → 12 ≤ row.1.length) :
    ∃ plans, massRun inet socket protocol table = some plans ∧
      ∀ s, (campaign plans).system.Reachable s →
        (∀ log, log <+: s.log → ∀ host address mac,
          cache protocol log host address = some mac →
            Learns inet protocol table (fun _ mac => mac = socket.src_mac.toList) host address mac ∨
            Learns inet protocol table (fun owner mac =>
              (MACtoBin owner).map Vector.toList = some mac) host address mac) ∧
        (s.finished → ∀ host address mac, cache protocol s.log host address = some mac →
          Learns inet protocol table (fun owner mac =>
            (MACtoBin owner).map Vector.toList = some mac) host address mac) ∧
        (s.signaled → ∀ l s', .signal ∉ l → (campaign plans).system.runs s l = some s' →
          (campaign plans).rank s ≤ l.length → s'.finished) := by
  obtain ⟨plans, hplans, hsounds⟩ := exists_massRun inet socket protocol hmac
  exact ⟨plans, hplans, fun s hs => hsounds.caches hs⟩

/-! ## Two devices -/

/-- Two addresses of IPv4 beside those of IPv6. -/
def twoHosts : Inet where
  toInet := ICMPv6.twoAddresses
  pton4 text :=
    if text = literal "10.0.0.1" then some #v[10, 0, 0, 1]
    else if text = literal "10.0.0.2" then some #v[10, 0, 0, 2]
    else none

def attacker : Socket where
  order := .little
  src_mac := #v[2, 0, 0, 0, 0, 9]
  arp := ⟨⟨1, #v[0, 0, 0, 0, 0, 0], #v[0, 0, 0, 0], #v[0, 0, 0, 0, 0, 0], #v[0, 0, 0, 0]⟩, []⟩
  icmpv6 := ⟨[], [], ⟨#v[0, 0, 0, 0, 0, 0], #v[0, 0, 0, 0, 0, 0]⟩, ⟨[], 0, 0, 0, ICMPv6.linkLocal,
    ICMPv6.linkLocal⟩, ⟨0, 0, 0, 0, 0⟩, ⟨0, 0, 0, [], ICMPv6.linkLocal⟩, ⟨0, 0⟩⟩

def twoDevices : ScanTable where
  rows := [(literal "0200.0000.0001", ⟨literal "g", [⟨true, literal "10.0.0.1"⟩]⟩),
    (literal "0200.0000.0002", ⟨literal "g", [⟨true, literal "10.0.0.2"⟩]⟩)]
  sorted := by decide

/-- A group of two devices. -/
theorem massRun_restores_twoDevices :
    ∃ plans, massRun twoHosts attacker .ARP twoDevices = some plans ∧
      ∀ s, (campaign plans).system.Reachable s → s.finished → ∀ host address mac,
        cache .ARP s.log host address = some mac → Learns twoHosts .ARP twoDevices
          (fun owner mac => (MACtoBin owner).map Vector.toList = some mac) host address mac := by
  obtain ⟨plans, hplans, hall⟩ := massRun_restores twoHosts attacker .ARP twoDevices
    (List.forall_mem_cons.mpr ⟨fun _ => by decide, List.forall_mem_singleton.mpr fun _ => by decide⟩)
  exact ⟨plans, hplans, fun s hs => (hall s hs).2.1⟩

/-! ## Two victims -/

/-- The kind of addresses that a protocol handles. -/
def Protocol.ipv4 : Protocol → Bool
  | .ARP => true
  | .NDP => false

/-- One victim takes a MAC address that meets `P` for the address of the other one. -/
def Told (inet : Inet) (protocol : Protocol) (victim1 victim2 : Victim)
    (P : Str → List UInt8 → Prop) (host address mac : List UInt8) : Prop :=
  ∃ a b, (a = victim1 ∧ b = victim2 ∨ a = victim2 ∧ b = victim1) ∧
    (MACtoBin a.mac).map Vector.toList = some host ∧
    addressOf inet protocol ⟨protocol.ipv4, b.ip⟩ = some address ∧ P b.mac mac

theorem learned_message {src_ip dst_ip : Str} {src_mac dst_mac : Mac} {e : Frame}
    (h : message inet socket protocol src_ip src_mac dst_ip dst_mac = some e) :
    ∃ address, addressOf inet protocol ⟨protocol.ipv4, src_ip⟩ = some address ∧
      learned protocol e = some ⟨dst_mac.toList, address, src_mac.toList⟩ := by
  cases protocol with
  | ARP =>
    obtain ⟨src, hsrc, h⟩ := Option.bind_eq_some_iff.mp h
    obtain ⟨dst, -, rfl⟩ := Option.map_eq_some_iff.mp h
    refine ⟨src.toList, ?_, arpEntry_reply ..⟩
    rw [addressOf, sender4, Protocol.ipv4, if_pos rfl, hsrc, Option.map_some]
  | NDP =>
    obtain ⟨src, hsrc, h⟩ := Option.bind_eq_some_iff.mp h
    obtain ⟨dst, hdst, h⟩ := Option.bind_eq_some_iff.mp h
    have hsender {ip : Str} {a : In6Addr} (h : (IPToBin inet ip).bind Sum.getRight? = some a) :
        sender6 inet ⟨false, ip⟩ = some a := by rw [sender6, if_neg Bool.false_ne_true, h]
    have hpton {ip : Str} {a : In6Addr} (h : (IPToBin inet ip).bind Sum.getRight? = some a) :
        inet.pton ip = some a := by
      obtain ⟨a', ha', hpton⟩ := pton_of_sender6 (Option.isSome_iff_exists.mpr ⟨_, hsender h⟩)
      rwa [← Option.some.inj ((hsender h).symm.trans ha')] at hpton
    obtain ⟨packet, hpacket, hpoisons⟩ := exists_naAdvert socket.order socket.icmpv6
      src_mac dst_mac (hpton hsrc) (hpton hdst)
    rw [hpacket, Option.map_some, Option.some.injEq] at h
    refine ⟨src.toList, ?_, h ▸ hpoisons.learned⟩
    rw [addressOf, Protocol.ipv4, hsender hsrc, Option.map_some]

/-- The same for two victims, whose caches the main thread refreshes after it has joined both
threads. -/
theorem run_restores (inet : Inet) (socket : Socket) (protocol : Protocol)
    (victim1 victim2 : Victim) {C : Campaign 2 Frame}
    (hrun : run inet socket protocol victim1 victim2 = some C) {s : Campaign.State 2 Frame}
    (hs : C.system.Reachable s) :
    (∀ log, log <+: s.log → ∀ host address mac, cache protocol log host address = some mac →
      Told inet protocol victim1 victim2 (fun _ mac => mac = socket.src_mac.toList)
        host address mac ∨
      Told inet protocol victim1 victim2 (fun owner mac =>
        (MACtoBin owner).map Vector.toList = some mac) host address mac) ∧
    (s.finished → ∀ host address mac, cache protocol s.log host address = some mac →
      Told inet protocol victim1 victim2 (fun owner mac =>
        (MACtoBin owner).map Vector.toList = some mac) host address mac) ∧
    (s.signaled → ∀ l s', .signal ∉ l → C.system.runs s l = some s' → C.rank s ≤ l.length →
      s'.finished) := by
  obtain ⟨vic2_mac, hmac2, hrun⟩ := Option.bind_eq_some_iff.mp hrun
  obtain ⟨vic1_mac, hmac1, hrun⟩ := Option.bind_eq_some_iff.mp hrun
  obtain ⟨poison1, hpoison1, hrun⟩ := Option.bind_eq_some_iff.mp hrun
  obtain ⟨poison2, hpoison2, hrun⟩ := Option.bind_eq_some_iff.mp hrun
  obtain ⟨packet1, hpacket1, hrun⟩ := Option.bind_eq_some_iff.mp hrun
  obtain ⟨packet2, hpacket2, rfl⟩ := Option.map_eq_some_iff.mp hrun
  obtain ⟨address1, haddress1, hpoison1⟩ := learned_message hpoison1
  obtain ⟨address2, haddress2, hpoison2⟩ := learned_message hpoison2
  obtain ⟨_, h1, hpacket1⟩ := learned_message hpacket1
  obtain rfl := Option.some.inj (haddress1.symm.trans h1)
  obtain ⟨_, h2, hpacket2⟩ := learned_message hpacket2
  obtain rfl := Option.some.inj (haddress2.symm.trans h2)
  -- `victim1` learns about the address of `victim2`, and the other way round
  have htold1 {P : Str → List UInt8 → Prop} {host address mac : List UInt8} {bin : Mac}
      (hP : P victim2.mac bin.toList)
      (h : some (Entry.mk vic1_mac.toList address2 bin.toList) = some ⟨host, address, mac⟩) :
      Told inet protocol victim1 victim2 P host address mac := by
    cases h
    exact ⟨_, _, .inl ⟨rfl, rfl⟩, by rw [hmac1, Option.map_some], haddress2, hP⟩
  have htold2 {P : Str → List UInt8 → Prop} {host address mac : List UInt8} {bin : Mac}
      (hP : P victim1.mac bin.toList)
      (h : some (Entry.mk vic2_mac.toList address1 bin.toList) = some ⟨host, address, mac⟩) :
      Told inet protocol victim1 victim2 P host address mac := by
    cases h
    exact ⟨_, _, .inr ⟨rfl, rfl⟩, by rw [hmac2, Option.map_some], haddress1, hP⟩
  refine caches_restored ⟨?_⟩ ?_ ?_ hs
  · intro i e he
    rcases i with ⟨_ | _ | i, hi⟩
    · obtain rfl := List.mem_singleton.mp he
      exact ⟨packet1, List.mem_cons_self, by rw [place, place, hpacket1, hpoison1]; rfl⟩
    · obtain rfl := List.mem_singleton.mp he
      exact ⟨packet2, List.mem_cons_of_mem _ List.mem_cons_self,
        by rw [place, place, hpacket2, hpoison2]; rfl⟩
    · omega
  · intro i e he host address mac hlearned
    rcases i with ⟨_ | _ | i, hi⟩
    · obtain rfl := List.mem_singleton.mp he
      exact htold2 rfl (hpoison1.symm.trans hlearned)
    · obtain rfl := List.mem_singleton.mp he
      exact htold1 rfl (hpoison2.symm.trans hlearned)
    · omega
  · rintro e (⟨i, he⟩ | he) host address mac hlearned
    · cases he
    · rcases List.mem_cons.mp he with rfl | he
      · exact htold2 (congrArg _ hmac1) (hpacket1.symm.trans hlearned)
      · obtain rfl := List.mem_singleton.mp he
        exact htold1 (congrArg _ hmac2) (hpacket2.symm.trans hlearned)

/-- Two victims. -/
theorem run_restores_twoVictims : ∃ C, run twoHosts attacker .ARP
    ⟨literal "10.0.0.1", literal "0200.0000.0001"⟩ ⟨literal "10.0.0.2", literal "0200.0000.0002"⟩ =
      some C ∧ ∀ s, C.system.Reachable s → s.finished → ∀ host address mac,
        cache .ARP s.log host address = some mac →
          Told twoHosts .ARP ⟨literal "10.0.0.1", literal "0200.0000.0001"⟩
            ⟨literal "10.0.0.2", literal "0200.0000.0002"⟩ (fun owner mac =>
              (MACtoBin owner).map Vector.toList = some mac) host address mac := by
  refine ⟨_, rfl, fun s hs => ?_⟩
  exact (run_restores twoHosts attacker .ARP _ _ rfl hs).2.1

end Spoofer
