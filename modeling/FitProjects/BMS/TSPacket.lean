import FitProjects.BMS.Demultiplexor

/-! # Transport packets

`TSPacket` of `BMS/proj2`. The fields of the header that `parse` fills in are bit fields; the bytes
of the payload are what the tables are parsed from. -/

structure Header where
  syncByte : UInt8
  transportError : UInt8
  payloadStart : UInt8
  transportPriority : UInt8
  pid : UInt16
  transportScrambling : UInt8
  adaptionField : UInt8
  continuityCounter : UInt8
  deriving DecidableEq, Repr

/-- `raw` has `size` bytes. -/
structure TSPacket where
  raw : List UInt8
  header : Header
  adaptionField : List UInt8
  payload : List UInt8
  deriving DecidableEq, Repr

namespace TSPacket

def size : Nat := 188

def rawByte (p : TSPacket) (i : Nat) : UInt8 := p.raw.getD i 0

/-- The fields behind the sync byte. -/
def parseHeader (p : TSPacket) : Header where
  syncByte := p.rawByte 0
  transportError := p.rawByte 1 >>> 7
  payloadStart := p.rawByte 1 >>> 6 &&& 0x1
  transportPriority := p.rawByte 1 >>> 5 &&& 0x1
  pid := word16 (p.rawByte 1 &&& 0x1F) (p.rawByte 2)
  transportScrambling := p.rawByte 3 >>> 6
  adaptionField := p.rawByte 3 >>> 4 &&& 0x3
  continuityCounter := p.rawByte 3 &&& 0xF

/-- An adaptation field is skipped without its length byte, so that with one the payload begins at
the pointer field. -/
def parse (p : TSPacket) : Bool × TSPacket :=
  let p := { p with
    adaptionField := []
    payload := []
    header := { p.header with syncByte := p.rawByte 0 } }
  if p.header.syncByte ≠ 0x47 then (false, p)
  else
    let header := p.parseHeader
    let hasField : Bool := header.adaptionField = 2 ∨ header.adaptionField = 3
    let len : UInt8 := if hasField then p.rawByte 4 else 0
    let adaptionField := if hasField then (p.raw.drop 4).take len.toNat else []
    let len := if header.payloadStart ≠ 0 then len + 1 else len
    let payload :=
      if header.adaptionField = 1 ∨ header.adaptionField = 3 then p.raw.drop (4 + len.toNat)
      else []
    (true, { p with header, adaptionField, payload })

/-- `payload[i]`; behind the end of the payload there is anything. -/
def payloadByte (p : TSPacket) (behind : Nat → UInt8) (i : Nat) : UInt8 :=
  p.payload.getD i (behind i)

end TSPacket
