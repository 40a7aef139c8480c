import FitProjects.Lib.Loop
import Mathlib.Data.Finset.Insert

/-! # The tables of a transport stream

`parsePAT`, `parseNIT`, `parsePMT`, `parseDescriptors` and `parseServiceDescriptor` of
`BMS/proj2/Demultiplexor.cpp`. The bytes of a packet are a function on all positions, since nothing
keeps the loops within the payload: what it gives behind the end of the payload is arbitrary. The
loops count in 8 or 16 bits, as their variables do. Every function is given the number of tests
that its loops may make of their guards, `none` says that this was not enough. -/

def TS_TABLE_PAT : UInt8 := 0x00
def TS_TABLE_PMT : UInt8 := 0x02
def TS_TABLE_NIT : UInt8 := 0x40

def TS_DESCRIPTOR_NETWORK_NAME : UInt8 := 0x40
def TS_DESCRIPTOR_SERVICE : UInt8 := 0x48
def TS_DESCRIPTOR_TERRESTRIAL : UInt8 := 0x5A

/-- `hi << 8 | lo`. -/
def word16 (hi lo : UInt8) : UInt16 := hi.toUInt16 <<< 8 ||| lo.toUInt16

/-- `(hi & 0xF) << 8 | lo`, how all lengths are read. -/
def length12 (hi lo : UInt8) : UInt16 := word16 (hi &&& 0xF) lo

/-- The bytes that `string::assign` copies. -/
def bytesAt (data : Nat → UInt8) (start len : Nat) : List UInt8 :=
  (List.range len).map fun i => data (start + i)

/-- `ProgramInfo`, as far as the tables fill it in. -/
structure ProgramInfo where
  serviceID : UInt16
  serviceProviderName : List UInt8
  serviceName : List UInt8

/-- What the tables fill in. A program that is not in `programElementary` has no streams there. -/
structure Demultiplexor where
  NITPid : UInt16
  analyzedNIT : Bool
  analyzedPAT : Bool
  PAT : UInt16 → Option UInt16
  programElementary : UInt16 → Finset UInt16
  networkName : List UInt8
  networkID : UInt16
  bandwidth : UInt8
  constellation : UInt8
  codeRateHP : UInt8
  guardInterval : UInt8
  programs : List ProgramInfo
  sdtData : Nat → UInt8

namespace Demultiplexor

/-- The constructor. What it does not set is zero here. -/
def init : Demultiplexor where
  NITPid := 0x10
  analyzedNIT := false
  analyzedPAT := false
  PAT := fun _ => none
  programElementary := fun _ => ∅
  networkName := []
  networkID := 0
  bandwidth := 0
  constellation := 0
  codeRateHP := 0
  guardInterval := 0
  programs := []
  sdtData := fun _ => 0

/-- `map::insert`, which keeps an entry that is there. -/
def insertPAT (PAT : UInt16 → Option UInt16) (programNumber pid n : UInt16) : Option UInt16 :=
  if n = programNumber then (PAT n).or (some pid) else PAT n

/-- One pass of the loop of `parsePAT`. -/
def patEntry (payload : Nat → UInt8) (s : Demultiplexor × UInt8) : Demultiplexor × UInt8 :=
  let (d, index) := s
  let programNumber := word16 (payload (index.toNat + 8)) (payload (index.toNat + 9))
  let pid := word16 (payload (index.toNat + 10) &&& 0x1F) (payload (index.toNat + 11))
  let d := { d with PAT := insertPAT d.PAT programNumber pid }
  let d := if programNumber = 0x00 then { d with NITPid := pid } else d
  (d, index + 4)

def parsePAT (fuel : Nat) (d : Demultiplexor) (payload : Nat → UInt8) :
    Option (Bool × Demultiplexor) :=
  let tableID := payload 0
  if tableID ≠ TS_TABLE_PAT then some (false, d)
  else
    let sectionLength := length12 (payload 1) (payload 2)
    let guard := fun s : Demultiplexor × UInt8 => decide (s.2.toNat < sectionLength.toNat)
    (loop guard (fun s => some (patEntry payload s)) fuel (d, 0)).map fun s =>
      (true, { s.1 with analyzedPAT := true })

/-- The `switch` of `parseDescriptors`; `start` is `index + offset`. -/
def descriptor (d : Demultiplexor) (payload : Nat → UInt8) (start : Nat) (len : UInt8) :
    Demultiplexor :=
  if payload start = TS_DESCRIPTOR_NETWORK_NAME then
    { d with networkName := bytesAt payload (start + 2) len.toNat }
  else if payload start = TS_DESCRIPTOR_TERRESTRIAL then
    { d with
      bandwidth := payload (start + 6) >>> 5
      constellation := payload (start + 7) >>> 6
      codeRateHP := payload (start + 7) &&& 0x7
      guardInterval := (payload (start + 8) >>> 3) &&& 0x3 }
  else d

/-- One pass of the loop of `parseDescriptors`. -/
def descriptorEntry (payload : Nat → UInt8) (offset : UInt8) (s : Demultiplexor × UInt16) :
    Demultiplexor × UInt16 :=
  let (d, index) := s
  let len := payload (index.toNat + offset.toNat + 1)
  (descriptor d payload (index.toNat + offset.toNat) len, index + (len.toUInt16 + 2))

def parseDescriptors (fuel : Nat) (d : Demultiplexor) (payload : Nat → UInt8) (offset : UInt8)
    (length : UInt16) : Option (Bool × Demultiplexor) :=
  let guard := fun s : Demultiplexor × UInt16 => decide (s.2.toNat < length.toNat)
  (loop guard (fun s => some (descriptorEntry payload offset s)) fuel (d, 0)).map fun s =>
    (true, s.1)

/-- The variables of the loop of `parseNIT`. -/
structure NITLoop where
  dmx : Demultiplexor
  payloadIndex : UInt8
  i : UInt8

/-- One pass of the loop of `parseNIT`. -/
def nitEntry (fuel : Nat) (payload : Nat → UInt8) (s : NITLoop) : Option NITLoop :=
  let payloadIndex := s.payloadIndex + 2
  let payloadIndex := payloadIndex + 2
  let transportDescriptorLen :=
    length12 (payload payloadIndex.toNat) (payload (payloadIndex.toNat + 1))
  let payloadIndex := payloadIndex + 2
  (parseDescriptors fuel s.dmx payload payloadIndex transportDescriptorLen).map fun r =>
    { dmx := r.2, payloadIndex, i := s.i + UInt8.ofNat (transportDescriptorLen.toNat + 6) }

def parseNIT (fuel : Nat) (d : Demultiplexor) (payload : Nat → UInt8) :
    Option (Bool × Demultiplexor) :=
  let tableID := payload 0
  if tableID ≠ TS_TABLE_NIT then some (false, d)
  else
    let d := { d with networkID := word16 (payload 3) (payload 4) }
    let networkLength := length12 (payload 8) (payload 9)
    (parseDescriptors fuel d payload 10 networkLength).bind fun r =>
      let transportStreamLength :=
        length12 (payload (networkLength.toNat + 10)) (payload (networkLength.toNat + 11))
      let payloadIndex := UInt8.ofNat (networkLength.toNat + 12)
      let guard := fun s : NITLoop => decide (s.i.toNat < transportStreamLength.toNat)
      (loop guard (nitEntry fuel payload) fuel { dmx := r.2, payloadIndex, i := 0 }).map fun s =>
        (true, { s.dmx with analyzedNIT := true })

/-- One pass of the loop of `parsePMT`. -/
def pmtEntry (payload : Nat → UInt8) (programNumber : UInt16) (payloadIndex : UInt8)
    (s : Demultiplexor × UInt8) : Demultiplexor × UInt8 :=
  let (d, i) := s
  let start := payloadIndex.toNat + i.toNat
  let elementaryPID := word16 (payload (start + 1) &&& 0x1F) (payload (start + 2))
  let ESInfoLength := length12 (payload (start + 3)) (payload (start + 4))
  let streams := d.programElementary programNumber
  let d :=
    if elementaryPID ≠ 0x1FFF then
      { d with programElementary :=
          Function.update d.programElementary programNumber (insert elementaryPID streams) }
    else d
  (d, i + UInt8.ofNat (ESInfoLength.toNat + 5))

def parsePMT (fuel : Nat) (d : Demultiplexor) (payload : Nat → UInt8) :
    Option (Bool × Demultiplexor) :=
  let tableID := payload 0
  if tableID ≠ TS_TABLE_PMT then some (false, d)
  else
    let sectionLength := length12 (payload 1) (payload 2)
    let programNumber := word16 (payload 3) (payload 4)
    let programInfoLength := length12 (payload 10) (payload 11)
    let payloadIndex := UInt8.ofNat (programInfoLength.toNat + 12)
    let guard := fun s : Demultiplexor × UInt8 => decide (s.2.toNat < sectionLength.toNat)
    (loop guard (fun s => some (pmtEntry payload programNumber payloadIndex s)) fuel (d, 0)).map
      fun s => (true, s.1)

/-- The variables of the loop of `parseServiceDescriptor`. -/
structure ServiceLoop where
  dmx : Demultiplexor
  index : UInt16
  /-- The loop was left by `break`. -/
  left : Bool

/-- The program that a service descriptor at `start` describes. -/
def serviceInfo (data : Nat → UInt8) (start : Nat) (serviceID : UInt16) : ProgramInfo :=
  let serviceProviderNameLength := (data (start + 3)).toNat
  let serviceNameLength := (data (start + serviceProviderNameLength + 4)).toNat
  { serviceID
    serviceProviderName := bytesAt data (start + 4) serviceProviderNameLength
    serviceName := bytesAt data (start + serviceProviderNameLength + 5) serviceNameLength }

/-- One pass of the loop of `parseServiceDescriptor`. It ends with `break`, so that `index` is never
advanced. -/
def serviceEntry (offset serviceID : UInt16) (s : ServiceLoop) : ServiceLoop :=
  let start := s.index.toNat + offset.toNat
  let dmx :=
    if s.dmx.sdtData start = TS_DESCRIPTOR_SERVICE then
      { s.dmx with programs := s.dmx.programs ++ [serviceInfo s.dmx.sdtData start serviceID] }
    else s.dmx
  { s with dmx, left := true }

def parseServiceDescriptor (fuel : Nat) (d : Demultiplexor) (offset length serviceID : UInt16) :
    Option Demultiplexor :=
  let guard := fun s : ServiceLoop => !s.left && decide (s.index.toNat < length.toNat)
  (loop guard (fun s => some (serviceEntry offset serviceID s)) fuel
    { dmx := d, index := 0, left := false }).map (·.dmx)

end Demultiplexor
