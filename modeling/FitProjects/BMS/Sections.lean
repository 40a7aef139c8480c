import FitProjects.BMS.TSPacket
import FitProjects.Lib.Bytes
import Mathlib.Data.List.Flatten
import Mathlib.Data.List.Nodup

/-! # Sections in transport packets

What a transport packet with the start of a program association or program map section looks like
(ISO/IEC 13818-1): four bytes of header, an adaptation field where there is one, the pointer field,
the section with its CRC and stuffing up to the size of the packet. -/

/-! ## Numbers -/

/-- The high byte of a number, with `flags` in the bits that the number leaves free, and its low
byte. -/
def flagged (flags : UInt8) (n : UInt16) : List UInt8 := [flags ||| (n >>> 8).toUInt8, n.toUInt8]

theorem word16_toNat (hi lo : UInt8) : (word16 hi lo).toNat = hi.toNat * 256 + lo.toNat := by
  have hshift : (8 : UInt16).toNat % 16 = 8 := rfl
  have hhi := hi.toNat_lt
  have hmod : hi.toNat <<< 8 % 2 ^ 16 = hi.toNat <<< 8 := by
    rw [Nat.shiftLeft_eq]
    exact Nat.mod_eq_of_lt (by omega)
  rw [word16, UInt16.toNat_or, UInt16.toNat_shiftLeft, UInt8.toNat_toUInt16, UInt8.toNat_toUInt16,
    hshift, hmod, ← Nat.shiftLeft_add_eq_or_of_lt lo.toNat_lt, Nat.shiftLeft_eq]

theorem toNat_high (n : UInt16) : (n >>> 8).toUInt8.toNat = n.toNat / 256 := by
  have hshift : (8 : UInt16).toNat % 16 = 8 := rfl
  have hn := n.toNat_lt
  rw [UInt16.toNat_toUInt8, UInt16.toNat_shiftRight, hshift, Nat.shiftRight_eq_div_pow]
  omega

theorem word16_high_low (n : UInt16) : word16 (n >>> 8).toUInt8 n.toUInt8 = n := by
  apply UInt16.toNat_inj.mp
  rw [word16_toNat, toNat_high, UInt16.toNat_toUInt8]
  omega

/-- A mask takes the flags away and leaves the number. -/
theorem flags_and {flags mask : UInt8} {n : UInt16} {w : Nat} (hmask : mask.toNat = 2 ^ w - 1)
    (hflags : flags &&& mask = 0) (hn : n.toNat < 256 * 2 ^ w) :
    (flags ||| (n >>> 8).toUInt8) &&& mask = (n >>> 8).toUInt8 := by
  apply UInt8.toNat_inj.mp
  have hzero : flags.toNat &&& mask.toNat = 0 := by
    rw [← UInt8.toNat_and, hflags]
    rfl
  have hhigh : (n >>> 8).toUInt8.toNat < 2 ^ w := by
    rw [toNat_high]
    omega
  rw [UInt8.toNat_and, UInt8.toNat_or, Nat.and_or_distrib_right, hzero, Nat.zero_or, hmask,
    Nat.and_two_pow_sub_one_of_lt_two_pow hhigh]

theorem word16_pid {n : UInt16} (hn : n < 0x2000) :
    word16 (((0xE0 : UInt8) ||| (n >>> 8).toUInt8) &&& 0x1F) n.toUInt8 = n := by
  have hand : ((0xE0 : UInt8) ||| (n >>> 8).toUInt8) &&& (0x1F : UInt8) = (n >>> 8).toUInt8 :=
    flags_and (w := 5) rfl (by decide) (UInt16.lt_iff_toNat_lt.mp hn)
  rw [hand, word16_high_low]

theorem length12_flagged {flags : UInt8} {n : UInt16} (hflags : flags &&& 0xF = 0)
    (hn : n.toNat < 4096) : length12 (flags ||| (n >>> 8).toUInt8) n.toUInt8 = n := by
  have hand : (flags ||| (n >>> 8).toUInt8) &&& (0xF : UInt8) = (n >>> 8).toUInt8 :=
    flags_and (w := 4) rfl hflags hn
  rw [length12, hand, word16_high_low]

/-! ## The check sum -/

/-- One bit of CRC-32 with the polynomial 0x04C11DB7. -/
def crcBit (crc : UInt32) : UInt32 :=
  if crc >>> 31 = 1 then crc <<< 1 ^^^ 0x04C11DB7 else crc <<< 1

def crcByte (crc : UInt32) (b : UInt8) : UInt32 := crcBit^[8] (crc ^^^ b.toUInt32 <<< 24)

/-- `CRC_32` of the bytes of a section before it. -/
def crc32 (bytes : List UInt8) : UInt32 := bytes.foldl crcByte 0xFFFFFFFF

def withCrc (bytes : List UInt8) : List UInt8 :=
  let crc := crc32 bytes
  bytes ++ [(crc >>> 24).toUInt8, (crc >>> 16).toUInt8, (crc >>> 8).toUInt8, crc.toUInt8]

theorem length_withCrc (bytes : List UInt8) : (withCrc bytes).length = bytes.length + 4 := by
  rw [withCrc, List.length_append]
  rfl

theorem stands_flagged {data : Nat → UInt8} {start : Nat} {flags : UInt8} {n : UInt16} :
    Stands data start (flagged flags n) ↔
      data start = flags ||| (n >>> 8).toUInt8 ∧ data (start + 1) = n.toUInt8 := by
  simp [flagged]

@[simp] theorem length_flagged (flags : UInt8) (n : UInt16) : (flagged flags n).length = 2 := rfl

theorem stands_withCrc {data : Nat → UInt8} {start : Nat} {bytes : List UInt8}
    (h : Stands data start (withCrc bytes)) : Stands data start bytes := by
  rw [withCrc, stands_append] at h
  exact h.1

/-! ## Sections -/

/-- A program association section. Its programs are numbers with the PID of their map, or of the
network information for program 0; no number stands there twice. -/
structure PatSection where
  transportStreamId : UInt16
  version : UInt8
  sectionNumber : UInt8
  lastSectionNumber : UInt8
  programs : List (UInt16 × UInt16)
  pid_lt : ∀ e ∈ programs, e.2 < 0x2000
  nodup : (programs.map Prod.fst).Nodup

namespace PatSection

def entry (e : UInt16 × UInt16) : List UInt8 := flagged 0 e.1 ++ flagged 0xE0 e.2

/-- The bytes from the stream id on: five, the programs, and the check sum are what
`section_length` counts. -/
def length (s : PatSection) : Nat := 5 + 4 * s.programs.length + 4

def bytes (s : PatSection) : List UInt8 :=
  withCrc (TS_TABLE_PAT :: flagged 0xB0 (UInt16.ofNat s.length) ++
    flagged 0 s.transportStreamId ++ [s.version, s.sectionNumber, s.lastSectionNumber] ++
    s.programs.flatMap entry)

end PatSection

/-- An elementary stream, with its descriptors. -/
structure ElementaryStream where
  streamType : UInt8
  pid : UInt16
  info : List UInt8
  pid_lt : pid < 0x2000

namespace ElementaryStream

def bytes (e : ElementaryStream) : List UInt8 :=
  e.streamType :: flagged 0xE0 e.pid ++ flagged 0xF0 (UInt16.ofNat e.info.length) ++ e.info

end ElementaryStream

/-- A program map section. -/
structure PmtSection where
  programNumber : UInt16
  version : UInt8
  pcrPid : UInt16
  info : List UInt8
  streams : List ElementaryStream
  pcrPid_lt : pcrPid < 0x2000

namespace PmtSection

/-- The stream loop. -/
def streamLoop (s : PmtSection) : List UInt8 := s.streams.flatMap ElementaryStream.bytes

def length (s : PmtSection) : Nat := 9 + s.info.length + s.streamLoop.length + 4

def bytes (s : PmtSection) : List UInt8 :=
  withCrc (TS_TABLE_PMT :: flagged 0xB0 (UInt16.ofNat s.length) ++ flagged 0 s.programNumber ++
    [s.version, 0, 0] ++ flagged 0xE0 s.pcrPid ++
    flagged 0xF0 (UInt16.ofNat s.info.length) ++ s.info ++ s.streamLoop)

end PmtSection

/-! ## Packets -/

/-- The first packet of a section, with the pointer field 0. -/
structure SectionPacket (sectionBytes : List UInt8) where
  flags : UInt8
  pidLow : UInt8
  control : UInt8
  /-- The adaptation field behind its length byte. -/
  adaptation : Option (List UInt8)
  stuffing : Nat
  payloadStart : flags >>> 6 &&& 0x1 = 1
  fieldControl : control >>> 4 &&& 0x3 = if adaptation.isSome then 3 else 1
  size : 4 + adaptation.elim 0 (·.length + 1) + 1 + sectionBytes.length + stuffing = TSPacket.size

namespace SectionPacket

variable {sectionBytes : List UInt8}

/-- The adaptation field with its length byte. -/
def fieldBytes (p : SectionPacket sectionBytes) : List UInt8 :=
  p.adaptation.elim [] fun field => UInt8.ofNat field.length :: field

/-- What follows the pointer field. -/
def content (p : SectionPacket sectionBytes) : List UInt8 :=
  sectionBytes ++ List.replicate p.stuffing 0xFF

def bytes (p : SectionPacket sectionBytes) : List UInt8 :=
  [0x47, p.flags, p.pidLow, p.control] ++ p.fieldBytes ++ 0 :: p.content

/-- The packet as it is given to `parse`, whatever was parsed before. -/
def packet (p : SectionPacket sectionBytes) (old : TSPacket) : TSPacket :=
  { old with raw := p.bytes }

theorem length_bytes (p : SectionPacket sectionBytes) : p.bytes.length = TSPacket.size := by
  have hsize := p.size
  rw [bytes, fieldBytes]
  cases hfield : p.adaptation with
  | none =>
    rw [hfield] at hsize
    simp only [Option.elim, content, List.length_append, List.length_cons, List.length_replicate,
      List.length_nil] at hsize ⊢
    omega
  | some field =>
    rw [hfield] at hsize
    simp only [Option.elim, content, List.length_append, List.length_cons, List.length_replicate,
      List.length_nil] at hsize ⊢
    omega

/-- What `parse` takes for the payload: with an adaptation field it begins at the pointer field. -/
theorem parse_payload (p : SectionPacket sectionBytes) (old : TSPacket) :
    (p.packet old).parse.1 = true ∧ (p.packet old).parse.2.payload =
      if p.adaptation.isSome then 0 :: p.content else p.content := by
  have hstart := p.payloadStart
  have hcontrol := p.fieldControl
  have hsize := p.size
  cases hfield : p.adaptation with
  | none =>
    rw [hfield] at hcontrol
    simp [TSPacket.parse, TSPacket.parseHeader, packet, TSPacket.rawByte, bytes, fieldBytes,
      hfield, hstart, hcontrol]
  | some field =>
    rw [hfield] at hcontrol hsize
    have hmod : (field.length + 1) % 256 = field.length + 1 := by
      have htotal : TSPacket.size = 188 := rfl
      simp only [Option.elim] at hsize
      omega
    simp [TSPacket.parse, TSPacket.parseHeader, packet, TSPacket.rawByte, bytes, fieldBytes,
      hfield, hstart, hcontrol, hmod, Nat.add_comm 4]

/-- The bytes of the payload, and what is behind it. -/
def visible (p : SectionPacket sectionBytes) (behind : Nat → UInt8) (i : Nat) : UInt8 :=
  (if p.adaptation.isSome then 0 :: p.content else p.content).getD i (behind i)

theorem payloadByte_parse (p : SectionPacket sectionBytes) (old : TSPacket)
    (behind : Nat → UInt8) :
    (p.packet old).parse.2.payloadByte behind = p.visible behind := by
  funext i
  rw [TSPacket.payloadByte, (p.parse_payload old).2, visible]

/-- Without an adaptation field the section begins where the payload does. -/
theorem stands_section (p : SectionPacket sectionBytes) (behind : Nat → UInt8)
    (h : p.adaptation = none) : Stands (p.visible behind) 0 sectionBytes := by
  have hvisible : p.visible behind = fun i => p.content.getD i (behind i) := by
    funext i
    simp [visible, h]
  have hcontent := stands_getD behind p.content
  rw [← hvisible, content, stands_append] at hcontent
  exact hcontent.1

/-- With one it begins a byte later. -/
theorem stands_section_of_some (p : SectionPacket sectionBytes) (behind : Nat → UInt8)
    (h : p.adaptation = some field) :
    p.visible behind 0 = 0 ∧ Stands (p.visible behind) 1 sectionBytes := by
  have hvisible : p.visible behind = fun i => (0 :: p.content).getD i (behind i) := by
    funext i
    simp [visible, h]
  have hcontent := stands_getD behind (0 :: p.content)
  rw [← hvisible, stands_cons, content, stands_append] at hcontent
  exact ⟨hcontent.1, hcontent.2.1⟩

theorem length_lt (p : SectionPacket sectionBytes) : sectionBytes.length < 184 := by
  have hsize := p.size
  have htotal : TSPacket.size = 188 := rfl
  omega

end SectionPacket
