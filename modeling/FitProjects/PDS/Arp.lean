import FitProjects.PDS.Packet

/-! # ARP packets

`Arp.cpp` of `PDS`: requests and replies, and the changes that are made to them later. What a host
learns from a frame is read back from its bytes. -/

namespace PDS

/-- The types and the lengths of the addresses are set by the constructor. -/
structure ArpHeader where
  op_code : Nat
  src_hw : Mac
  src_protocol : IPv4
  dst_hw : Mac
  dst_protocol : IPv4

def ArpHeader.bytes (h : ArpHeader) : List UInt8 :=
  htons 1 ++ htons 0x0800 ++ [6, 4] ++ htons h.op_code ++ h.src_hw.toList ++
    h.src_protocol.toList ++ h.dst_hw.toList ++ h.dst_protocol.toList

structure Arp where
  header : ArpHeader
  buffer : List UInt8

namespace Arp

def fillBuffer (p : Arp) : Arp :=
  { p with buffer := p.header.dst_hw.toList ++ p.header.src_hw.toList ++
      [UInt8.ofNat (0x0806 / 256), UInt8.ofNat (0x0806 % 256)] ++ p.header.bytes }

/-- The target is broadcast. -/
def request (p : Arp) (src_ip : IPv4) (src_mac : Mac) (dst_ip : IPv4) : Arp :=
  fillBuffer { p with header := ⟨1, src_mac, src_ip, Vector.replicate 6 0xFF, dst_ip⟩ }

def reply (p : Arp) (src_ip : IPv4) (src_mac : Mac) (dst_ip : IPv4) (dst_mac : Mac) : Arp :=
  fillBuffer { p with header := ⟨2, src_mac, src_ip, dst_mac, dst_ip⟩ }

def modifySrcMac (p : Arp) (mac : Mac) : Arp :=
  fillBuffer { p with header := { p.header with src_hw := mac } }

variable {p : Arp}

theorem buffer_fillBuffer (p : Arp) : p.fillBuffer.buffer =
    p.header.dst_hw.toList ++ p.header.src_hw.toList ++ [8, 6] ++ p.header.bytes := rfl

end Arp

end PDS
