import FitProjects.Lib.Campaign
import FitProjects.PDS.Arp
import FitProjects.PDS.Icmpv6
import Mathlib.Data.Fin.VecNotation

/-! # Spoofing of caches

`Spoofer.cpp` and `massspoof.cpp` of `PDS`: the pairs of devices of a group, and a thread for each
pair that keeps telling both devices the attacker's MAC address for the addresses of the other one,
and after a signal tells them the right ones. Hosts learn from the frames of ARP and of NDP. Every
`Socket::send` succeeds; one that sends nothing throws and ends the program. -/

namespace Spoofer

open PDS

abbrev Frame := List UInt8

/-- `inet_pton` for IPv4 as well. -/
structure Inet extends ICMPv6.Inet where
  pton4 : Str → Option IPv4

structure Device where
  mac : Str
  addresses : List IpAddress

abbrev Group := Device × Device

/-! ## The pairs -/

/-- One pass of the inner loop of `main`: a pair with every other device of the group. -/
def pairUp (mac : Str × MacProperties) (state : List Group × List Str)
    (cmp_mac : Str × MacProperties) : List Group × List Str :=
  if mac.1 ≠ cmp_mac.1 ∧ mac.2.group = cmp_mac.2.group then
    (state.1 ++ [(⟨mac.1, mac.2.addresses⟩, ⟨cmp_mac.1, cmp_mac.2.addresses⟩)],
      mac.1 :: cmp_mac.1 :: state.2)
  else state

/-- The pairs of `main`, together with the devices already grouped up. -/
def pairLoop (table : ScanTable) : List Group × List Str :=
  table.rows.foldl (fun state mac =>
    if mac.2.group = [] then state
    else if state.2.contains mac.1 then state
    else table.rows.foldl (pairUp mac) state) ([], [])

def devices (table : ScanTable) : List Group := (pairLoop table).1

/-! ## Packets -/

section
variable (inet : Inet)

def IPToBin (ip : Str) : Option (IPv4 ⊕ In6Addr) :=
  match inet.pton4 ip with
  | some a => some (.inl a)
  | none => (inet.pton ip).map .inr

/-- The address, if it is one for ARP. -/
def sender4 (ip : IpAddress) : Option IPv4 :=
  if ip.ipv4 then (IPToBin inet ip.address).bind Sum.getLeft? else none

/-- The address, if it is one for NDP. -/
def sender6 (ip : IpAddress) : Option In6Addr :=
  if ip.ipv4 then none else (IPToBin inet ip.address).bind Sum.getRight?

/-- Every reply overwrites all of `packet`; `none` is an exception. -/
def prepareARPPackets (packet : Arp) (src_mac : Mac) (group : Group) : Option (List Arp) :=
  match group.1.addresses.findSome? (sender4 inet), group.2.addresses.findSome? (sender4 inet) with
  | some send_ip1, some send_ip2 =>
    (MACtoBin group.2.mac).bind fun mac2 => (MACtoBin group.1.mac).map fun mac1 =>
      (group.1.addresses.filterMap (sender4 inet)).map
          (fun ip => packet.reply ip src_mac send_ip2 mac2) ++
        (group.2.addresses.filterMap (sender4 inet)).map
          (fun ip => packet.reply ip src_mac send_ip1 mac1)
  | _, _ => some []

/-- The advertisements of the addresses of a device. -/
def adverts (order : ByteOrder) (packet : ICMPv6.Packet) (src_mac : Mac) (addresses : List IpAddress)
    (dst_mac : Mac) (dst_ip : Str) : Option (List ICMPv6.Packet) :=
  (addresses.filter fun ip => (sender6 inet ip).isSome).mapM fun ip =>
    (ICMPv6.naAdvert order inet.toInet packet src_mac ip.address dst_mac dst_ip).toOption

def prepareNDPPackets (order : ByteOrder) (packet : ICMPv6.Packet) (src_mac : Mac) (group : Group) :
    Option (List ICMPv6.Packet) :=
  match group.1.addresses.find? fun ip => (sender6 inet ip).isSome,
    group.2.addresses.find? fun ip => (sender6 inet ip).isSome with
  | some send_ip1, some send_ip2 =>
    (MACtoBin group.2.mac).bind fun mac2 =>
      (adverts inet order packet src_mac group.1.addresses mac2 send_ip2.address).bind fun first =>
        (MACtoBin group.1.mac).bind fun mac1 =>
          (adverts inet order packet src_mac group.2.addresses mac1 send_ip1.address).map
            fun second => first ++ second
  | _, _ => some []

end

/-! ## Threads -/

section
variable {α : Type} (modifySrcMac : α → Mac → Option α) (buffer : α → Frame)

/-- One pass of the last loop of `massRunARP` and of `massRunNDP`: the packet to send, if any. -/
def restored (group : Group) (mac1 mac2 : Mac) (packet : α) : Option (Option α) :=
  (getDstMac (buffer packet)).bind fun dst => (MACToInt group.1.mac).bind fun int1 =>
    if dst = int1 then (modifySrcMac packet mac2).map some
    else (MACToInt group.2.mac).bind fun int2 =>
      if dst = int2 then (modifySrcMac packet mac1).map some else some none

/-- What a thread sends in every round, and after the signal. -/
def massRunWith (group : Group) (packets : List α) : Option (List Frame × List Frame) :=
  if packets.isEmpty then some ([], [])
  else (MACtoBin group.1.mac).bind fun mac1 => (MACtoBin group.2.mac).bind fun mac2 =>
    (packets.mapM (restored modifySrcMac buffer group mac1 mac2)).map fun last =>
      (packets.map buffer, last.reduceOption.map buffer)

end

inductive Protocol
  | ARP
  | NDP

/-- The attacker's side: its byte order and MAC address, and unused packets. -/
structure Socket where
  order : ByteOrder
  src_mac : Mac
  arp : Arp
  icmpv6 : ICMPv6.Packet

section
variable (inet : Inet) (socket : Socket)

def massRunARP (group : Group) : Option (List Frame × List Frame) :=
  (prepareARPPackets inet socket.arp socket.src_mac group).bind
    (massRunWith (fun packet mac => some (packet.modifySrcMac mac)) Arp.buffer group)

def massRunNDP (group : Group) : Option (List Frame × List Frame) :=
  (prepareNDPPackets inet socket.order socket.icmpv6 socket.src_mac group).bind
    (massRunWith (fun packet mac => (ICMPv6.modifySrcMac socket.order inet.toInet packet mac).bind
      Except.toOption) ICMPv6.Packet.buffer group)

def thread : Protocol → Group → Option (List Frame × List Frame)
  | .ARP => massRunARP inet socket
  | .NDP => massRunNDP inet socket

/-- A thread for each pair; `main` joins them and sends nothing more. -/
def campaign (plans : List (List Frame × List Frame)) : Campaign plans.length Frame :=
  ⟨fun i => plans[i].1, fun i => plans[i].2, []⟩

def massRun (protocol : Protocol) (table : ScanTable) : Option (List (List Frame × List Frame)) :=
  (devices table).mapM (thread inet socket protocol)

/-! ## Two victims -/

structure Victim where
  ip : Str
  mac : Str

/-- The frame of a reply or of an advertisement; `none` is an exception, which the constructor throws
for an address that is not one of the protocol. -/
def message (protocol : Protocol) (src_ip : Str) (src_mac : Mac) (dst_ip : Str) (dst_mac : Mac) :
    Option Frame :=
  match protocol with
  | .ARP => ((IPToBin inet src_ip).bind Sum.getLeft?).bind fun src =>
      ((IPToBin inet dst_ip).bind Sum.getLeft?).map fun dst =>
        (socket.arp.reply src src_mac dst dst_mac).buffer
  | .NDP => ((IPToBin inet src_ip).bind Sum.getRight?).bind fun _ =>
      ((IPToBin inet dst_ip).bind Sum.getRight?).bind fun _ =>
        (ICMPv6.naAdvert socket.order inet.toInet socket.icmpv6 src_mac src_ip dst_mac
          dst_ip).toOption.map ICMPv6.Packet.buffer

/-- `Spoofer::run`: two threads that send nothing after the signal, and the caches refreshed by the
main thread. -/
def run (protocol : Protocol) (victim1 victim2 : Victim) : Option (Campaign 2 Frame) :=
  (MACtoBin victim2.mac).bind fun vic2_mac => (MACtoBin victim1.mac).bind fun vic1_mac =>
    (message inet socket protocol victim1.ip socket.src_mac victim2.ip vic2_mac).bind fun poison1 =>
    (message inet socket protocol victim2.ip socket.src_mac victim1.ip vic1_mac).bind fun poison2 =>
    (message inet socket protocol victim1.ip vic1_mac victim2.ip vic2_mac).bind fun packet1 =>
    (message inet socket protocol victim2.ip vic2_mac victim1.ip vic1_mac).map fun packet2 =>
      ⟨![[poison1], [poison2]], fun _ => [], [packet1, packet2]⟩

end

/-! ## Hosts -/

/-- The MAC address that a host takes for an address. -/
structure Entry where
  host : List UInt8
  address : List UInt8
  mac : List UInt8

/-- What a host learns from a reply of ARP for IPv4 over Ethernet. -/
def arpEntry (frame : Frame) : Option Entry :=
  if (frame.drop 12).take 10 = [8, 6, 0, 1, 8, 0, 6, 4, 0, 2] then
    some ⟨frame.take 6, (frame.drop 28).take 4, (frame.drop 22).take 6⟩
  else none

/-- The sum of the words of an ICMPv6 message with the header that the receiver puts before it. -/
def icmpSum (frame : Frame) : Nat :=
  OnesComplement.fold (256 * 256) (OnesComplement.total ByteOrder.big.load
    ((frame.drop 22).take 32 ++ [0, 0] ++ (frame.drop 18).take 2 ++ [0, 0, 0, 58] ++ frame.drop 54))

/-- What a host learns from an advertisement that overrides, not forwarded and with a right
checksum. -/
def ndpEntry (frame : Frame) : Option Entry :=
  if (frame.drop 12).take 2 = [0x86, 0xDD] ∧ (frame.drop 20).take 2 = [58, 255] ∧
      (frame.drop 54).take 2 = [136, 0] ∧ (frame.drop 58).take 4 = [0x20, 0, 0, 0] ∧
      (frame.drop 78).take 2 = [2, 1] ∧ icmpSum frame = 256 * 256 - 1 then
    some ⟨frame.take 6, (frame.drop 62).take 16, (frame.drop 80).take 6⟩
  else none

def learned : Protocol → Frame → Option Entry
  | .ARP => arpEntry
  | .NDP => ndpEntry

/-- The place of the cache that a frame changes. -/
def place (protocol : Protocol) (frame : Frame) : Option (List UInt8 × List UInt8) :=
  (learned protocol frame).map fun e => (e.host, e.address)

/-- What the cache of a host has after some frames for an address, `none` if no frame changed it. -/
def cache (protocol : Protocol) (log : List Frame) (host address : List UInt8) :
    Option (List UInt8) :=
  ((Campaign.last (place protocol) log (some (host, address))).bind (learned protocol)).map Entry.mac

/-- An address of the kind that the protocol handles. -/
def addressOf (inet : Inet) : Protocol → IpAddress → Option (List UInt8)
  | .ARP, ip => (sender4 inet ip).map Vector.toList
  | .NDP, ip => (sender6 inet ip).map Vector.toList

/-- The table gives a device the address. -/
def Has (inet : Inet) (protocol : Protocol) (row : Str × MacProperties) (address : List UInt8) :
    Prop :=
  ∃ ip ∈ row.2.addresses, addressOf inet protocol ip = some address

/-- Two devices of one group. -/
structure Paired (table : ScanTable) (a b : Str × MacProperties) : Prop where
  left : a ∈ table.rows
  right : b ∈ table.rows
  ne : a.1 ≠ b.1
  group : a.2.group = b.2.group
  grouped : a.2.group ≠ []

end Spoofer
