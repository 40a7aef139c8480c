import FitProjects.Lib.OnesComplement
import FitProjects.PDS.Packet

/-! # ICMPv6 messages

`ICMPv6.cpp` of `PDS`: the frames of the echo request and of the neighbour advertisement, with their
checksums. A host of either byte order sends frames that every receiver takes. The conversions of
the C library between addresses and texts are a parameter. -/

namespace ICMPv6

open PDS

/-! ## The checksum of the sender -/

/-- The loop over the words and the byte that may be left. -/
def sumLoop (order : ByteOrder) (sum : Nat) : List UInt8 → Nat
  | a :: b :: addr => sumLoop order ((sum + order.load a b) % 2 ^ 32) addr
  | [a] => (sum + a.toNat) % 2 ^ 32
  | [] => sum

/-- The loop that folds the sum. -/
def foldLoop (sum : Nat) : Nat :=
  if sum >>> 16 ≠ 0 then foldLoop ((sum &&& 0xffff) + (sum >>> 16)) else sum
termination_by sum
decreasing_by
  have hand : sum &&& 0xffff = sum % 2 ^ 16 := Nat.and_two_pow_sub_one_eq_mod sum 16
  omega

/-- `checksum` -/
def checksum (order : ByteOrder) (addr : List UInt8) : Nat :=
  0xffff - foldLoop (sumLoop order 0 addr) % 2 ^ 16

/-! ## Headers -/

/-- `ether_type` is set by the constructor. -/
structure EtherHeader where
  ether_dhost : Mac
  ether_shost : Mac

def EtherHeader.bytes (h : EtherHeader) : List UInt8 :=
  h.ether_dhost.toList ++ h.ether_shost.toList ++ htons 0x86DD

structure Ip6Hdr where
  ip6_flow : List UInt8
  ip6_plen : Nat
  ip6_nxt : UInt8
  ip6_hops : UInt8
  ip6_src : In6Addr
  ip6_dst : In6Addr

def Ip6Hdr.bytes (h : Ip6Hdr) : List UInt8 :=
  h.ip6_flow ++ htons h.ip6_plen ++ [h.ip6_nxt, h.ip6_hops] ++ h.ip6_src.toList ++ h.ip6_dst.toList

structure Icmp6Hdr where
  icmp6_type : UInt8
  icmp6_code : UInt8
  icmp6_cksum : Nat
  icmp6_id : Nat
  icmp6_seq : Nat

def Icmp6Hdr.bytes (order : ByteOrder) (h : Icmp6Hdr) : List UInt8 :=
  [h.icmp6_type, h.icmp6_code] ++ order.store h.icmp6_cksum ++ htons h.icmp6_id ++ htons h.icmp6_seq

structure NdNeighborAdvert where
  icmp6_type : UInt8
  icmp6_code : UInt8
  icmp6_cksum : Nat
  nd_na_flags_reserved : List UInt8
  nd_na_target : In6Addr

def NdNeighborAdvert.bytes (order : ByteOrder) (h : NdNeighborAdvert) : List UInt8 :=
  [h.icmp6_type, h.icmp6_code] ++ order.store h.icmp6_cksum ++ h.nd_na_flags_reserved ++
    h.nd_na_target.toList

structure NdOptHdr where
  nd_opt_type : UInt8
  nd_opt_len : UInt8

def NdOptHdr.bytes (h : NdOptHdr) : List UInt8 := [h.nd_opt_type, h.nd_opt_len]

/-- An object of the class. -/
structure Packet where
  buffer : List UInt8
  icmpBuffer : List UInt8
  eh : EtherHeader
  ip6_header : Ip6Hdr
  icmp6_header : Icmp6Hdr
  na : NdNeighborAdvert
  na_opt : NdOptHdr

/-- `inet_pton` and `inet_ntop` for IPv6, and `strerror`. The status for a text that is no address is
zero. -/
structure Inet where
  pton : List UInt8 → Option In6Addr
  ntop : In6Addr → List UInt8
  strerror : Int → String
  pton_ntop : ∀ a, pton (ntop a) = some a

/-! ## Messages -/

/-- What `checkSum` and `checkSumND` put before the message: the addresses, the length and the
protocol. -/
def pseudoHeader (h : Ip6Hdr) (size : Nat) (nxt : UInt8) : List UInt8 :=
  h.ip6_src.toList ++ h.ip6_dst.toList ++ [UInt8.ofNat (size / 256), UInt8.ofNat (size % 256)] ++
    [0, 0, 0, nxt]

/-- A byte is added to an odd length. -/
def padded (buff : List UInt8) : List UInt8 :=
  if buff.length % 2 = 1 then buff ++ [0] else buff

section
variable (order : ByteOrder) (inet : Inet) (p : Packet)

def checkSumND : Nat :=
  checksum order (padded (pseudoHeader p.ip6_header (24 + 8) 58 ++ p.na.bytes order ++
    p.na_opt.bytes ++ p.eh.ether_shost.toList))

def checkSum : Nat :=
  checksum order (padded (pseudoHeader p.ip6_header (8 + p.icmpBuffer.length)
    p.ip6_header.ip6_nxt ++ p.icmp6_header.bytes order ++ p.icmpBuffer))

/-- `fillIP6Header`; an address that is none is an exception. -/
def fillIP6Header (src_ip dst_ip : List UInt8) : Except String Packet :=
  match inet.pton src_ip with
  | none => .error ("ICMPv6::fillIP6Header() - load src_ip" ++ inet.strerror 0)
  | some src =>
    match inet.pton dst_ip with
    | none => .error ("ICMPv6::fillIP6Header() - load dst_ip" ++ inet.strerror 0)
    | some dst => .ok { p with ip6_header := ⟨[0x60, 0, 0, 0], 8 + 8, 58, 255, src, dst⟩ }

def fillICMPEchoHeader : Packet :=
  let p := { p with
    icmpBuffer := [0xcd, 0x25, 0xcd, 0x25, 0xcd, 0x25, 0xcd, 0x25]
    icmp6_header := ⟨128, 0, 0, 42, 0⟩ }
  { p with icmp6_header := { p.icmp6_header with icmp6_cksum := checkSum order p } }

def fillNDAHeader : Packet :=
  let p := { p with
    na := ⟨136, 0, 0, [0x20, 0, 0, 0], p.ip6_header.ip6_src⟩
    na_opt := ⟨2, 1⟩ }
  { p with na := { p.na with icmp6_cksum := checkSumND order p } }

/-- `ff02::1` and its MAC address are the destination. -/
def echoRequest (src_mac : Mac) (src_ip : List UInt8) : Except String Packet :=
  let p := { p with eh := ⟨#v[0x33, 0x33, 0, 0, 0, 1], src_mac⟩ }
  (fillIP6Header inet p src_ip (literal "ff02::1")).map fun p =>
    let p := fillICMPEchoHeader order p
    { p with buffer :=
        p.eh.bytes ++ p.ip6_header.bytes ++ p.icmp6_header.bytes order ++ p.icmpBuffer }

def naAdvert (src_mac : Mac) (src_ip : List UInt8) (dst_mac : Mac) (dst_ip : List UInt8) :
    Except String Packet :=
  let p := { p with eh := ⟨dst_mac, src_mac⟩ }
  (fillIP6Header inet p src_ip dst_ip).map fun p =>
    let p := fillNDAHeader order { p with ip6_header := { p.ip6_header with ip6_plen := 32 } }
    { p with buffer := p.eh.bytes ++ p.ip6_header.bytes ++ p.na.bytes order ++ p.na_opt.bytes ++
        src_mac.toList }

/-- The destination is what the frame begins with, undefined for a frame that is too short. -/
def modifySrcMac (mac : Mac) : Option (Except String Packet) :=
  if h : (p.buffer.take 6).length = 6 then
    some (naAdvert order inet p mac (inet.ntop p.ip6_header.ip6_src)
      ⟨(p.buffer.take 6).toArray, h⟩ (inet.ntop p.ip6_header.ip6_dst))
  else none

end

/-! ## The checksum -/

variable {order : ByteOrder} {bytes : List UInt8} {n : Nat}

theorem load_store (order : ByteOrder) (h : n < 2 ^ 16) :
    ∃ a b, order.store n = [a, b] ∧ order.load a b = n := by
  have hlow : (UInt8.ofNat n).toNat = n % 2 ^ 8 := UInt8.toNat_ofNat'
  have hhigh : (UInt8.ofNat (n / 256)).toNat = n / 256 % 2 ^ 8 := UInt8.toNat_ofNat'
  cases order with
  | little =>
    refine ⟨_, _, rfl, ?_⟩
    rw [ByteOrder.load, hlow, hhigh]
    omega
  | big =>
    refine ⟨_, _, rfl, ?_⟩
    rw [ByteOrder.load, hlow, hhigh]
    omega

theorem load_lt (order : ByteOrder) (a b : UInt8) : order.load a b < 2 ^ 16 := by
  have ha := a.toNat_lt
  have hb := b.toNat_lt
  cases order with
  | little =>
    rw [ByteOrder.load]
    omega
  | big =>
    rw [ByteOrder.load]
    omega

/-- The sum of the words does not overflow. -/
theorem sumLoop_eq (order : ByteOrder) (heven : 2 ∣ bytes.length) (sum : Nat)
    (h : sum + bytes.length * 2 ^ 15 < 2 ^ 32) :
    sumLoop order sum bytes = sum + OnesComplement.total order.load bytes := by
  induction bytes using OnesComplement.total.induct generalizing sum with
  | case1 a b bytes ih =>
    have hlt := load_lt order a b
    rw [List.length_cons, List.length_cons] at h heven
    have hmod : (sum + order.load a b) % 2 ^ 32 = sum + order.load a b :=
      Nat.mod_eq_of_lt (by omega)
    have hsum := ih (by omega) (sum + order.load a b) (by omega)
    rw [sumLoop, hmod, hsum, OnesComplement.total, Nat.add_assoc]
  | case2 bytes hne =>
    rcases bytes with _ | ⟨a, _ | ⟨b, bytes⟩⟩
    · rfl
    · simp at heven
    · exact absurd rfl (hne a b bytes)

theorem foldLoop_eq (sum : Nat) : foldLoop sum = OnesComplement.fold (256 * 256) sum := by
  induction sum using foldLoop.induct with
  | case1 sum hne ih =>
    have hand : sum &&& 0xffff = sum % 2 ^ 16 := Nat.and_two_pow_sub_one_eq_mod sum 16
    have hshift : sum >>> 16 = sum / 2 ^ 16 := Nat.shiftRight_eq_div_pow sum 16
    rw [foldLoop, if_pos hne, ih, hand, hshift]
    rw [hshift] at hne
    exact (OnesComplement.fold_of_le (by omega) (by omega)).symm
  | case2 sum heq =>
    rw [foldLoop, if_neg heq, OnesComplement.fold_of_lt]
    rw [ne_eq, not_not, Nat.shiftRight_eq_div_pow] at heq
    omega

theorem checksum_eq (order : ByteOrder) (bytes : List UInt8) (heven : 2 ∣ bytes.length)
    (h : bytes.length < 2 ^ 16) :
    checksum order bytes = 256 * 256 - 1 -
      OnesComplement.fold (256 * 256) (OnesComplement.total order.load bytes) := by
  have hlt := (OnesComplement.fold_spec (b := 256 * 256) (by decide)
    (OnesComplement.total order.load bytes)).1
  rw [checksum, sumLoop_eq order heven 0 (by omega), foldLoop_eq, Nat.zero_add,
    Nat.mod_eq_of_lt (by omega)]

/-- The checksum in the place of two zeros makes the sum of the words the greatest word, in the byte
order of the network as well. -/
theorem fold_total_checksum (order : ByteOrder) (pre post : List UInt8) (hpre : 2 ∣ pre.length)
    (hpost : 2 ∣ post.length) (h : pre.length + post.length + 2 < 2 ^ 16) :
    OnesComplement.fold (256 * 256) (OnesComplement.total ByteOrder.big.load
      (pre ++ order.store (checksum order (pre ++ [0, 0] ++ post)) ++ post)) = 256 * 256 - 1 := by
  have hlen : (pre ++ [0, 0] ++ post).length = pre.length + 2 + post.length := by
    rw [List.length_append, List.length_append]
    rfl
  have hcheck := checksum_eq order (pre ++ [0, 0] ++ post) (by omega) (by omega)
  obtain ⟨a, b, hstore, hload⟩ := load_store order (n := checksum order (pre ++ [0, 0] ++ post))
    (by omega)
  have hzero : order.load 0 0 = 0 := by
    cases order with
    | little => rfl
    | big => rfl
  have htotal : OnesComplement.total order.load (pre ++ [a, b] ++ post) =
      OnesComplement.total order.load (pre ++ [0, 0] ++ post) + order.load a b := by
    simp only [List.append_assoc, OnesComplement.total_append hpre, List.cons_append,
      List.nil_append, OnesComplement.total, hzero]
    omega
  rw [hstore]
  have hsum : OnesComplement.fold (256 * 256)
      (OnesComplement.total order.load (pre ++ [a, b] ++ post)) = 256 * 256 - 1 := by
    rw [htotal, hload, hcheck]
    exact OnesComplement.fold_add_complement (by decide) _
  cases order with
  | little =>
    exact OnesComplement.fold_total_swap (v := UInt8.toNat) (by decide) (fun _ _ => rfl)
      (fun _ _ => rfl) hsum
  | big => exact hsum

/-! ## What receivers take -/

/-- A frame as a receiver reads it. -/
structure Datagram where
  dhost : Mac
  shost : Mac
  src : In6Addr
  dst : In6Addr
  message : List UInt8

namespace Datagram

/-- The bytes on the wire: a message of ICMPv6 in IPv6, not forwarded by any router. -/
def frame (d : Datagram) : List UInt8 :=
  d.dhost.toList ++ d.shost.toList ++ [0x86, 0xDD] ++ [0x60, 0, 0, 0] ++ htons d.message.length ++
    [58, 255] ++ d.src.toList ++ d.dst.toList ++ d.message

/-- The header that a receiver puts before the message, with a length of four bytes. -/
def pseudo (d : Datagram) : List UInt8 :=
  d.src.toList ++ d.dst.toList ++ [0, 0] ++ htons d.message.length ++ [0, 0, 0, 58]

/-- The sum of the words, in the byte order of the network, is the greatest word. -/
def Valid (d : Datagram) : Prop :=
  OnesComplement.fold (256 * 256) (OnesComplement.total ByteOrder.big.load (d.pseudo ++ d.message)) =
    256 * 256 - 1

end Datagram

/-- The buffer is the frame of a valid message, with some bytes of a checksum. -/
def Sends (buffer : List UInt8) (dhost shost : Mac) (src dst : In6Addr)
    (message : List UInt8 → List UInt8) : Prop :=
  ∃ cksum, cksum.length = 2 ∧
    buffer = Datagram.frame ⟨dhost, shost, src, dst, message cksum⟩ ∧
    Datagram.Valid ⟨dhost, shost, src, dst, message cksum⟩

/-- An advertisement that overrides what the receiver has for the address. -/
def advertMessage (target : In6Addr) (mac : Mac) (cksum : List UInt8) : List UInt8 :=
  [136, 0] ++ cksum ++ [0x20, 0, 0, 0] ++ target.toList ++ [2, 1] ++ mac.toList

def echoMessage (cksum : List UInt8) : List UInt8 :=
  [128, 0] ++ cksum ++ [0, 42, 0, 0] ++ [0xcd, 0x25, 0xcd, 0x25, 0xcd, 0x25, 0xcd, 0x25]

/-- A message with its checksum in the place of two zeros is valid. -/
theorem valid_of_checksum {dhost shost : Mac} {h : Ip6Hdr} {head tail : List UInt8} {size : Nat}
    (hhead : head.length = 2) (hsize : size = head.length + 2 + tail.length)
    (hodd : 2 ∣ tail.length) (hlt : size < 2 ^ 15) :
    Datagram.Valid ⟨dhost, shost, h.ip6_src, h.ip6_dst, head ++ order.store (checksum order
      (pseudoHeader h size 58 ++ head ++ [0, 0] ++ tail)) ++ tail⟩ := by
  have hpseudo : (pseudoHeader h size 58).length = 38 := by simp [pseudoHeader]
  obtain ⟨a, b, hstore, -⟩ := load_store order (n := checksum order
    (pseudoHeader h size 58 ++ head ++ [0, 0] ++ tail)) (by rw [checksum]; omega)
  have hpre : (pseudoHeader h size 58 ++ head).length = 40 := by
    rw [List.length_append, hpseudo, hhead]
  have hfold := fold_total_checksum order (pseudoHeader h size 58 ++ head) tail (by omega) hodd
    (by omega)
  have hmessage : (head ++ [a, b] ++ tail).length = size := by
    simp only [List.length_append, List.length_cons, List.length_nil, hsize]
  have hbyte : UInt8.ofNat (size % 256) = UInt8.ofNat size := UInt8.ofNat_mod_size
  have haddr : 2 ∣ (h.ip6_src.toList ++ h.ip6_dst.toList).length := by simp
  rw [hstore] at hfold ⊢
  rw [Datagram.Valid, Datagram.pseudo, hmessage, ← hfold, pseudoHeader, hbyte]
  -- the words of the lengths have the same sum
  generalize h.ip6_src.toList ++ h.ip6_dst.toList = addresses at haddr ⊢
  simp only [htons, ByteOrder.store, List.append_assoc, OnesComplement.total_append haddr]
  simp [OnesComplement.total, ByteOrder.load]

/-! ## The frames of the tools -/

variable {inet : Inet} {p p₁ : Packet} {src_mac dst_mac mac : Mac} {src_ip dst_ip : List UInt8}

theorem fillIP6Header_of_pton {src dst : In6Addr} (hsrc : inet.pton src_ip = some src)
    (hdst : inet.pton dst_ip = some dst) : fillIP6Header inet p src_ip dst_ip =
      .ok { p with ip6_header := ⟨[0x60, 0, 0, 0], 8 + 8, 58, 255, src, dst⟩ } := by
  rw [fillIP6Header, hsrc]
  dsimp only
  rw [hdst]

theorem fillIP6Header_ok (h : fillIP6Header inet p src_ip dst_ip = .ok p₁) :
    ∃ src dst, inet.pton src_ip = some src ∧ inet.pton dst_ip = some dst := by
  rw [fillIP6Header] at h
  split at h
  · cases h
  next src hsrc =>
    split at h
    · cases h
    next dst hdst => exact ⟨src, dst, hsrc, hdst⟩

theorem exists_pton_of_map {f : Packet → Packet}
    (h : (fillIP6Header inet p src_ip dst_ip).map f = .ok p₁) :
    ∃ src dst, inet.pton src_ip = some src ∧ inet.pton dst_ip = some dst := by
  cases hfill : fillIP6Header inet p src_ip dst_ip with
  | error e =>
    rw [hfill] at h
    cases h
  | ok p₁ => exact fillIP6Header_ok hfill

theorem store_zero (order : ByteOrder) : order.store 0 = [0, 0] := by
  cases order with
  | little => rfl
  | big => rfl

theorem padded_of_even {buff : List UInt8} (h : 2 ∣ buff.length) : padded buff = buff :=
  if_neg (by omega)

theorem checkSumND_eq {target : In6Addr} (hna : p.na = ⟨136, 0, 0, [0x20, 0, 0, 0], target⟩)
    (hopt : p.na_opt = ⟨2, 1⟩) : checkSumND order p =
      checksum order (pseudoHeader p.ip6_header 32 58 ++ [136, 0] ++ [0, 0] ++
        ([0x20, 0, 0, 0] ++ target.toList ++ [2, 1] ++ p.eh.ether_shost.toList)) := by
  rw [checkSumND, hna, hopt, padded_of_even]
  · simp only [NdNeighborAdvert.bytes, NdOptHdr.bytes, store_zero, List.append_assoc]
  · simp [pseudoHeader, NdNeighborAdvert.bytes, NdOptHdr.bytes, store_zero]

theorem naAdvert_of_pton (order : ByteOrder) (p : Packet) (src_mac dst_mac : Mac)
    {src dst : In6Addr} (hsrc : inet.pton src_ip = some src)
    (hdst : inet.pton dst_ip = some dst) :
    ∃ p₁, naAdvert order inet p src_mac src_ip dst_mac dst_ip = .ok p₁ ∧
      p₁.ip6_header.ip6_src = src ∧ p₁.ip6_header.ip6_dst = dst ∧
      p₁.buffer.take 6 = dst_mac.toList ∧
      Sends p₁.buffer dst_mac src_mac src dst (advertMessage src src_mac) := by
  let header : Ip6Hdr := ⟨[0x60, 0, 0, 0], 32, 58, 255, src, dst⟩
  let tail := [0x20, 0, 0, 0] ++ src.toList ++ [2, 1] ++ src_mac.toList
  let cksum := order.store (checksum order (pseudoHeader header 32 58 ++ [136, 0] ++ [0, 0] ++ tail))
  have hlen : cksum.length = 2 := by cases order <;> rfl
  have htail : tail.length = 28 := by simp [tail]
  have hmessage : advertMessage src src_mac cksum = [136, 0] ++ cksum ++ tail := by
    simp [advertMessage, tail]
  have hsize : (advertMessage src src_mac cksum).length = 32 := by
    rw [hmessage, List.length_append, List.length_append, hlen, htail]
    rfl
  rw [naAdvert, fillIP6Header_of_pton hsrc hdst]
  refine ⟨_, rfl, rfl, rfl, ?_, cksum, hlen, ?_, ?_⟩
  · simp [EtherHeader.bytes, fillNDAHeader]
  · dsimp only [fillNDAHeader]
    rw [Datagram.frame, hsize, hmessage, checkSumND_eq rfl rfl]
    simp only [EtherHeader.bytes, Ip6Hdr.bytes, NdNeighborAdvert.bytes, NdOptHdr.bytes,
      List.append_assoc, cksum, tail]
    rfl
  · rw [hmessage]
    exact valid_of_checksum (h := header) rfl (by rw [htail]; rfl) (by omega) (by decide)

theorem checkSum_eq (htype : p.icmp6_header = ⟨128, 0, 0, 42, 0⟩)
    (hdata : p.icmpBuffer = [0xcd, 0x25, 0xcd, 0x25, 0xcd, 0x25, 0xcd, 0x25])
    (hnxt : p.ip6_header.ip6_nxt = 58) : checkSum order p =
      checksum order (pseudoHeader p.ip6_header 16 58 ++ [128, 0] ++ [0, 0] ++
        ([0, 42, 0, 0] ++ [0xcd, 0x25, 0xcd, 0x25, 0xcd, 0x25, 0xcd, 0x25])) := by
  rw [checkSum, htype, hdata, hnxt, padded_of_even]
  · simp only [Icmp6Hdr.bytes, store_zero, List.append_assoc]
    rfl
  · have hhtons (n : Nat) : (htons n).length = 2 := rfl
    simp [pseudoHeader, Icmp6Hdr.bytes, store_zero, hhtons]

theorem echoRequest_of_pton (order : ByteOrder) (p : Packet) (src_mac : Mac)
    {src dst : In6Addr} (hsrc : inet.pton src_ip = some src)
    (hdst : inet.pton (literal "ff02::1") = some dst) :
    ∃ p₁, echoRequest order inet p src_mac src_ip = .ok p₁ ∧
      Sends p₁.buffer #v[0x33, 0x33, 0, 0, 0, 1] src_mac src dst echoMessage := by
  let header : Ip6Hdr := ⟨[0x60, 0, 0, 0], 16, 58, 255, src, dst⟩
  let tail : List UInt8 := [0, 42, 0, 0] ++ [0xcd, 0x25, 0xcd, 0x25, 0xcd, 0x25, 0xcd, 0x25]
  let cksum := order.store (checksum order (pseudoHeader header 16 58 ++ [128, 0] ++ [0, 0] ++ tail))
  have hlen : cksum.length = 2 := by cases order <;> rfl
  have hmessage : echoMessage cksum = [128, 0] ++ cksum ++ tail := by simp [echoMessage, tail]
  have hsize : (echoMessage cksum).length = 16 := by
    rw [hmessage, List.length_append, List.length_append, hlen]
    rfl
  rw [echoRequest, fillIP6Header_of_pton hsrc hdst]
  refine ⟨_, rfl, cksum, hlen, ?_, ?_⟩
  · dsimp only [fillICMPEchoHeader]
    rw [Datagram.frame, hsize, hmessage, checkSum_eq rfl rfl rfl]
    simp only [EtherHeader.bytes, Ip6Hdr.bytes, Icmp6Hdr.bytes, List.append_assoc, cksum, tail]
    rfl
  · rw [hmessage]
    exact valid_of_checksum (h := header) rfl rfl (by decide) (by decide)

/-- An advertisement with another source. -/
theorem modifySrcMac_of_take {dst_mac : Mac} (order : ByteOrder) (inet : Inet)
    (hdhost : p.buffer.take 6 = dst_mac.toList) (mac : Mac) :
    ∃ p', modifySrcMac order inet p mac = some (.ok p') ∧
      Sends p'.buffer dst_mac mac p.ip6_header.ip6_src p.ip6_header.ip6_dst
        (advertMessage p.ip6_header.ip6_src mac) := by
  have hlen : (p.buffer.take 6).length = 6 := by rw [hdhost, Vector.length_toList]
  have hdst_mac : (⟨(p.buffer.take 6).toArray, hlen⟩ : Mac) = dst_mac :=
    Vector.toList_inj.mp hdhost
  obtain ⟨p', hp', -, -, -, hsends⟩ := naAdvert_of_pton order p mac dst_mac
    (inet.pton_ntop p.ip6_header.ip6_src) (inet.pton_ntop p.ip6_header.ip6_dst)
  refine ⟨p', ?_, hsends⟩
  rw [modifySrcMac, dif_pos hlen, hdst_mac, hp']

/-- For addresses the tools build frames of valid messages with what was asked for, which stay valid
when the source is exchanged. For other texts they build none. -/
theorem frames_valid (order : ByteOrder) (inet : Inet) (p : Packet) (src_mac dst_mac : Mac)
    (src_ip dst_ip : List UInt8) :
    (∀ src dst, inet.pton src_ip = some src → inet.pton dst_ip = some dst →
      ∃ p₁, naAdvert order inet p src_mac src_ip dst_mac dst_ip = .ok p₁ ∧
        Sends p₁.buffer dst_mac src_mac src dst (advertMessage src src_mac) ∧
        ∀ mac, ∃ p₂, modifySrcMac order inet p₁ mac = some (.ok p₂) ∧
          Sends p₂.buffer dst_mac mac src dst (advertMessage src mac)) ∧
    (∀ src dst, inet.pton src_ip = some src → inet.pton (literal "ff02::1") = some dst →
      ∃ p₁, echoRequest order inet p src_mac src_ip = .ok p₁ ∧
        Sends p₁.buffer #v[0x33, 0x33, 0, 0, 0, 1] src_mac src dst echoMessage) ∧
    (∀ p₁, naAdvert order inet p src_mac src_ip dst_mac dst_ip = .ok p₁ →
      ∃ src dst, inet.pton src_ip = some src ∧ inet.pton dst_ip = some dst) ∧
    ∀ p₁, echoRequest order inet p src_mac src_ip = .ok p₁ →
      ∃ src dst, inet.pton src_ip = some src ∧ inet.pton (literal "ff02::1") = some dst := by
  refine ⟨fun src dst hsrc hdst => ?_, fun src dst hsrc hdst => ?_, fun p₁ h => ?_, fun p₁ h => ?_⟩
  · obtain ⟨p₁, heq, rfl, rfl, hdhost, hsends⟩ := naAdvert_of_pton order p src_mac dst_mac hsrc hdst
    exact ⟨p₁, heq, hsends, modifySrcMac_of_take order inet hdhost⟩
  · exact echoRequest_of_pton order p src_mac hsrc hdst
  · exact exists_pton_of_map h
  · exact exists_pton_of_map h

def linkLocal : In6Addr := #v[0xfe, 0x80, 0, 0, 0, 0, 0, 0, 0, 0, 0, 0, 0, 0, 0, 1]

def allNodes : In6Addr := #v[0xff, 0x02, 0, 0, 0, 0, 0, 0, 0, 0, 0, 0, 0, 0, 0, 1]

/-- The conversions for two addresses; other addresses have their bytes as a text. -/
def twoAddresses : Inet where
  pton text :=
    if text = literal "fe80::1" then some linkLocal
    else if text = literal "ff02::1" then some allNodes
    else if h : (text.drop 1).length = 16 then some ⟨(text.drop 1).toArray, h⟩
    else none
  ntop a :=
    if a = linkLocal then literal "fe80::1"
    else if a = allNodes then literal "ff02::1"
    else 0 :: a.toList
  strerror _ := "Success"
  pton_ntop a := by
    split
    next h => exact (if_pos rfl).trans (congrArg some h.symm)
    next =>
      split
      next h => exact (if_neg (by decide)).trans ((if_pos rfl).trans (congrArg some h.symm))
      next =>
        have hlen : (a.toList).length = 16 := a.length_toList
        have hne (text : List UInt8) (h : text.head? ≠ some 0) : 0 :: a.toList ≠ text := by
          rintro rfl
          exact h rfl
        rw [if_neg (hne _ (by decide)), if_neg (hne _ (by decide))]
        exact dif_pos hlen

/-- An advertisement for all nodes. -/
theorem frames_valid_allNodes : ∃ p p₁ : Packet,
    naAdvert .little twoAddresses p #v[2, 0, 0, 0, 0, 1] (literal "fe80::1")
      #v[0x33, 0x33, 0, 0, 0, 1] (literal "ff02::1") = .ok p₁ ∧
    Sends p₁.buffer #v[0x33, 0x33, 0, 0, 0, 1] #v[2, 0, 0, 0, 0, 1] linkLocal allNodes
      (advertMessage linkLocal #v[2, 0, 0, 0, 0, 1]) := by
  let p : Packet := ⟨[], [], ⟨#v[0, 0, 0, 0, 0, 0], #v[0, 0, 0, 0, 0, 0]⟩,
    ⟨[], 0, 0, 0, linkLocal, linkLocal⟩, ⟨0, 0, 0, 0, 0⟩, ⟨0, 0, 0, [], linkLocal⟩, ⟨0, 0⟩⟩
  obtain ⟨p₁, hp₁, hsends, -⟩ := (frames_valid .little twoAddresses p #v[2, 0, 0, 0, 0, 1]
    #v[0x33, 0x33, 0, 0, 0, 1] (literal "fe80::1") (literal "ff02::1")).1 linkLocal allNodes rfl rfl
  exact ⟨p, p₁, hp₁, hsends⟩

end ICMPv6
