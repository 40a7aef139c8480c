import FitProjects.Lib.Decimal
import FitProjects.Lib.Hex

/-! # Frames and addresses

`Packet.cpp` and `common.cpp` of `PDS`: the fields of a frame that the tools read and change in
place, and the texts of addresses. -/

namespace PDS

abbrev Str := List UInt8

/-- The bytes of a MAC address. -/
abbrev Mac := Vector UInt8 6

abbrev IPv4 := Vector UInt8 4

/-- `struct in6_addr` -/
abbrev In6Addr := Vector UInt8 16

/-! ## Words in memory -/

/-- The byte order of the host. -/
inductive ByteOrder
  | little
  | big

namespace ByteOrder

/-- A `uint16_t` read from two bytes. -/
def load (order : ByteOrder) (a b : UInt8) : Nat :=
  match order with
  | little => a.toNat + 256 * b.toNat
  | big => 256 * a.toNat + b.toNat

/-- The bytes of a `uint16_t`. -/
def store (order : ByteOrder) (n : Nat) : List UInt8 :=
  match order with
  | little => [UInt8.ofNat n, UInt8.ofNat (n / 256)]
  | big => [UInt8.ofNat (n / 256), UInt8.ofNat n]

end ByteOrder

/-- The bytes of `htons(n)`. -/
def htons (n : Nat) : List UInt8 := ByteOrder.big.store n

/-! ## Texts of addresses -/

/-- Numbers between dots. -/
def getIP (ip : IPv4) : Str :=
  (List.finRange 4).flatMap fun (i : Fin 4) => (if i ≠ 0 then [46] else []) ++
    Decimal.print ip[i].toNat

/-- `mac.substr(pos, 2)`, an exception behind the end. -/
def substr (mac : Str) (pos : Nat) : Option Str :=
  if pos ≤ mac.length then some ((mac.drop pos).take 2) else none

/-- A byte from `strtol`. -/
def byteAt (mac : Str) (pos : Nat) : Option UInt8 :=
  (substr mac pos).map fun s => UInt8.ofInt (Hex.strtol s)

def MACtoBin (mac : Str) : Option Mac :=
  (byteAt mac 0).bind fun b0 => (byteAt mac 2).bind fun b1 => (byteAt mac 5).bind fun b2 =>
    (byteAt mac 7).bind fun b3 => (byteAt mac 10).bind fun b4 => (byteAt mac 12).map fun b5 =>
      #v[b0, b1, b2, b3, b4, b5]

/-- The number with the bytes. -/
def MacBinToInt (mac : Mac) : UInt64 :=
  mac[0].toUInt64 <<< 40 ||| mac[1].toUInt64 <<< 32 ||| mac[2].toUInt64 <<< 24 |||
    mac[3].toUInt64 <<< 16 ||| mac[4].toUInt64 <<< 8 ||| mac[5].toUInt64

def MACToInt (mac : Str) : Option UInt64 := (MACtoBin mac).map MacBinToInt

/-! ## Devices -/

structure IpAddress where
  ipv4 : Bool
  address : Str
deriving DecidableEq

structure MacProperties where
  group : Str
  addresses : List IpAddress
deriving DecidableEq

/-- `std::map` from the texts of MAC addresses, in their order. -/
structure ScanTable where
  rows : List (Str × MacProperties)
  sorted : (rows.map Prod.fst).Pairwise (· < ·)

/-! ## Frames -/

/-- The bytes at a place of a frame, undefined behind its end. -/
def field (buffer : List UInt8) (pos len : Nat) : Option (Vector UInt8 len) :=
  if h : ((buffer.drop pos).take len).length = len then
    some ⟨((buffer.drop pos).take len).toArray, h⟩
  else none

/-- 1 for IPv4, 2 for IPv6. -/
def getIPProtocol (buffer : List UInt8) : Option Nat :=
  (field buffer 12 2).map fun type =>
    if type = #v[8, 0] then 1 else if type = #v[0x86, 0xDD] then 2 else 0

def getDstMac (buffer : List UInt8) : Option UInt64 := (field buffer 0 6).map MacBinToInt

def getSrcIP (buffer : List UInt8) : Option Str := (field buffer (14 + 12) 4).map getIP

def getSrcIPv6 (buffer : List UInt8) : Option In6Addr := field buffer (14 + 8) 16

def setDstMac (buffer : List UInt8) (mac : UInt64) : Option (List UInt8) :=
  if 6 ≤ buffer.length then
    some ([(mac >>> 40).toUInt8, (mac >>> 32).toUInt8, (mac >>> 24).toUInt8, (mac >>> 16).toUInt8,
      (mac >>> 8).toUInt8, mac.toUInt8] ++ buffer.drop 6)
  else none

def setSrcMac (buffer : List UInt8) (mac : Mac) : Option (List UInt8) :=
  if 12 ≤ buffer.length then some (buffer.take 6 ++ mac.toList ++ buffer.drop 12) else none

/-! ## Lemmas -/

variable {mac mac' : Mac} {ip ip' : IPv4} {buffer : List UInt8}

/-- A field after the bytes before it. -/
theorem field_append {len : Nat} (pre : List UInt8) (v : Vector UInt8 len) (post : List UInt8) :
    field (pre ++ v.toList ++ post) pre.length len = some v := by
  have hfield : ((pre ++ v.toList ++ post).drop pre.length).take len = v.toList := by
    rw [List.append_assoc, List.drop_left, List.take_append_of_le_length (by simp),
      List.take_of_length_le (by simp)]
  rw [field, dif_pos (by rw [hfield, Vector.length_toList]), Option.some.injEq, ← Vector.toList_inj]
  exact hfield

theorem field_eq_some {pos len : Nat} {v : Vector UInt8 len} :
    field buffer pos len = some v ↔ (buffer.drop pos).take len = v.toList := by
  rw [field]
  constructor
  · intro h
    split at h
    next =>
      cases h
      rfl
    next => cases h
  · intro h
    rw [dif_pos (by rw [h, Vector.length_toList]), Option.some.injEq, ← Vector.toList_inj]
    exact h

theorem isSome_field {pos len : Nat} (hlen : 0 < len) :
    (field buffer pos len).isSome ↔ pos + len ≤ buffer.length := by
  have hiff : ((buffer.drop pos).take len).length = len ↔ pos + len ≤ buffer.length := by
    rw [List.length_take, List.length_drop]
    omega
  rw [field]
  split
  next h => exact iff_of_true rfl (hiff.mp h)
  next h => exact iff_of_false Bool.false_ne_true fun hle => h (hiff.mpr hle)

theorem exists_bytes (mac : Mac) : ∃ a b c d e f, mac = #v[a, b, c, d, e, f] := by
  rcases mac with ⟨⟨l⟩, h⟩
  match l, h with
  | [a, b, c, d, e, f], _ => exact ⟨a, b, c, d, e, f, rfl⟩

/-- The bytes that `setDstMac` takes from the number. -/
theorem bytes_MacBinToInt (mac : Mac) :
    [(MacBinToInt mac >>> 40).toUInt8, (MacBinToInt mac >>> 32).toUInt8,
      (MacBinToInt mac >>> 24).toUInt8, (MacBinToInt mac >>> 16).toUInt8,
      (MacBinToInt mac >>> 8).toUInt8, (MacBinToInt mac).toUInt8] = mac.toList := by
  have hbyte {x y : UInt8} (h : ∀ i < 8, x.toBitVec.getLsbD i = y.toBitVec.getLsbD i) : x = y :=
    UInt8.eq_of_toBitVec_eq (BitVec.eq_of_getLsbD_eq h)
  obtain ⟨a, b, c, d, e, f, rfl⟩ := exists_bytes mac
  -- a bit of a byte is a bit of the number, where the other bytes are shifted away
  refine congrArg₂ _ (hbyte ?_) (congrArg₂ _ (hbyte ?_) (congrArg₂ _ (hbyte ?_)
    (congrArg₂ _ (hbyte ?_) (congrArg₂ _ (hbyte ?_) (congrArg₂ _ (hbyte ?_) rfl))))) <;>
  · intro i hi
    simp only [MacBinToInt, UInt64.toBitVec_toUInt8]
    simp (disch := omega) [BitVec.getLsbD_of_ge, decide_eq_true]

theorem MacBinToInt_injective : Function.Injective MacBinToInt := by
  intro mac mac' h
  apply Vector.toList_inj.mp
  rw [← bytes_MacBinToInt mac, h, bytes_MacBinToInt]

end PDS
