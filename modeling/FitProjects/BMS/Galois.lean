import FitProjects.Lib.LogTables
import Mathlib.Data.Fintype.Card
import Mathlib.Data.Fintype.Pi
import Mathlib.Algebra.CharP.Two
import Mathlib.Dynamics.PeriodicPts.Defs
import Mathlib.Tactic.IntervalCases

/-! # The arithmetic of the codewords

`lib/galois.c` of `BMS/proj1`: the tables of powers and logarithms, products and inverses. The bytes
are a field with the exclusive or and the products. -/

namespace Rscode

/-- An `int` that the library computes with. All of them are bytes. -/
structure GF256 where
  byte : UInt8
  deriving DecidableEq

namespace GF256

instance : XorOp GF256 := ⟨fun a b => ⟨a.byte ^^^ b.byte⟩⟩

instance : Zero GF256 := ⟨⟨0⟩⟩

instance : Add GF256 := ⟨fun a b => a ^^^ b⟩

instance : Neg GF256 := ⟨fun a => a⟩

instance : AddCommGroup GF256 where
  nsmul := nsmulRec
  zsmul := zsmulRec
  add_assoc a b c := congrArg mk (UInt8.xor_assoc ..)
  zero_add a := congrArg mk UInt8.zero_xor
  add_zero a := congrArg mk UInt8.xor_zero
  neg_add_cancel a := congrArg mk UInt8.xor_self
  add_comm a b := congrArg mk (UInt8.xor_comm ..)

@[simp] theorem xor_eq_add (a b : GF256) : a ^^^ b = a + b := rfl

@[simp] theorem add_byte (a b : GF256) : (a + b).byte = a.byte ^^^ b.byte := rfl

@[simp] theorem zero_byte : (0 : GF256).byte = 0 := rfl

@[simp] theorem add_self (a : GF256) : a + a = 0 := neg_add_cancel a

end GF256

/-! ## The tables -/

/-- The variables `p1` to `p8`. -/
structure Register where
  p1 : Bool
  p2 : Bool
  p3 : Bool
  p4 : Bool
  p5 : Bool
  p6 : Bool
  p7 : Bool
  p8 : Bool
  deriving DecidableEq

namespace Register

def init : Register := ⟨true, false, false, false, false, false, false, false⟩

/-- The assignments of a turn; `pinit` is the old `p8`. -/
def next (p : Register) : Register where
  p8 := p.p7
  p7 := p.p6
  p6 := p.p5
  p5 := p.p4 ^^ p.p8
  p4 := p.p3 ^^ p.p8
  p3 := p.p2 ^^ p.p8
  p2 := p.p1
  p1 := p.p8

def value (p : Register) : GF256 :=
  ⟨p.p1.toUInt8 + p.p2.toUInt8 * 2 + p.p3.toUInt8 * 4 + p.p4.toUInt8 * 8 + p.p5.toUInt8 * 16 +
    p.p6.toUInt8 * 32 + p.p7.toUInt8 * 64 + p.p8.toUInt8 * 128⟩

end Register

/-- The register and `gexp` after `n` turns of the loop of `init_exp_table`. -/
def initExpTable : Nat → Register × List GF256
  | 0 => (.init, ((List.replicate 512 0).set 0 ⟨1⟩).set 255 ⟨1⟩)
  | n + 1 =>
    let p := (initExpTable n).1.next
    (p, ((initExpTable n).2.set (n + 1) p.value).set (n + 1 + 255) p.value)

def gexp (i : Nat) : GF256 := (initExpTable 255).2.getD i 0

/-- The array `glog`: the first `z` with the power, for each byte but 0. -/
def initLogTable : List Nat :=
  (List.range 256).map fun i =>
    if i = 0 then 0 else ((List.range 256).find? fun z => gexp z = ⟨UInt8.ofNat i⟩).getD 0

def glog (a : GF256) : Nat := initLogTable.getD a.byte.toNat 0

def gmult (a b : GF256) : GF256 := if a = 0 ∨ b = 0 then 0 else gexp (glog a + glog b)

def ginv (elt : GF256) : GF256 := gexp (255 - glog elt)

/-! ## Registers and bytes -/

namespace Register

def ofByte (b : UInt8) : Register where
  p1 := b.toNat.testBit 0
  p2 := b.toNat.testBit 1
  p3 := b.toNat.testBit 2
  p4 := b.toNat.testBit 3
  p5 := b.toNat.testBit 4
  p6 := b.toNat.testBit 5
  p7 := b.toNat.testBit 6
  p8 := b.toNat.testBit 7

/-- The exclusive or, bit by bit. -/
def xor (p q : Register) : Register where
  p1 := p.p1 ^^ q.p1
  p2 := p.p2 ^^ q.p2
  p3 := p.p3 ^^ q.p3
  p4 := p.p4 ^^ q.p4
  p5 := p.p5 ^^ q.p5
  p6 := p.p6 ^^ q.p6
  p7 := p.p7 ^^ q.p7
  p8 := p.p8 ^^ q.p8

set_option maxRecDepth 8000 in
theorem ofByte_value (p : Register) : ofByte p.value.byte = p := by
  obtain ⟨p1, p2, p3, p4, p5, p6, p7, p8⟩ := p
  revert p1 p2 p3 p4 p5 p6 p7 p8
  decide

theorem ofByte_injective : Function.Injective ofByte := by
  intro a b h
  simp only [ofByte, mk.injEq] at h
  obtain ⟨h0, h1, h2, h3, h4, h5, h6, h7⟩ := h
  apply UInt8.toNat_inj.mp
  apply Nat.eq_of_testBit_eq
  intro i
  rcases Nat.lt_or_ge i 8 with hi | hi
  · interval_cases i <;> assumption
  · have hle : 2 ^ 8 ≤ 2 ^ i := Nat.pow_le_pow_right Nat.two_pos hi
    have ha := a.toNat_lt
    have hb := b.toNat_lt
    rw [Nat.testBit_lt_two_pow (by omega), Nat.testBit_lt_two_pow (by omega)]

theorem value_ofByte (b : UInt8) : (ofByte b).value = ⟨b⟩ :=
  congrArg GF256.mk (ofByte_injective (ofByte_value (ofByte b)))

theorem value_injective : Function.Injective value := by
  intro p q h
  rw [← ofByte_value p, h, ofByte_value]

theorem ofByte_xor (a b : UInt8) : ofByte (a ^^^ b) = (ofByte a).xor (ofByte b) := by
  simp only [ofByte, xor, UInt8.toNat_xor, Nat.testBit_xor]

theorem value_xor (p q : Register) : (p.xor q).value = p.value + q.value := by
  have hxor := ofByte_xor p.value.byte q.value.byte
  rw [ofByte_value, ofByte_value] at hxor
  rw [← hxor, value_ofByte]
  rfl

/-- Two summands that share the bit that is shifted out. -/
theorem next_xor (p q : Register) : (p.xor q).next = p.next.xor q.next := by
  have hcomm : ∀ a b c d : Bool, ((a ^^ b) ^^ (c ^^ d)) = ((a ^^ c) ^^ (b ^^ d)) := by decide
  simp only [next, xor, mk.injEq, true_and, and_true]
  exact ⟨hcomm .., hcomm .., hcomm ..⟩

set_option maxRecDepth 8000 in
theorem iterate_next_period : next^[255] init = init := rfl

set_option maxRecDepth 8000 in
/-- The register comes back to its first state after 255 turns, not earlier. -/
theorem minimalPeriod_next : Function.minimalPeriod next init = 255 := by
  have hdvd : Function.minimalPeriod next init ∣ 255 :=
    Function.IsPeriodicPt.minimalPeriod_dvd iterate_next_period
  have hnot (n : Nat) (hn : next^[n] init ≠ init) : ¬ Function.minimalPeriod next init ∣ n :=
    fun h => hn (Function.isPeriodicPt_iff_minimalPeriod_dvd.mpr h)
  have h85 := hnot 85 (by decide)
  have h51 := hnot 51 (by decide)
  have h15 := hnot 15 (by decide)
  have hmax : ∀ d ≤ 255, d ∣ 255 → ¬ d ∣ 85 → ¬ d ∣ 51 → ¬ d ∣ 15 → d = 255 := by decide
  exact hmax _ (Nat.le_of_dvd (by decide) hdvd) hdvd h85 h51 h15

end Register

/-! ## Powers -/

open Register

/-- The operator of the tables: a turn of the register. -/
def shift : GF256 →+ GF256 where
  toFun a := (ofByte a.byte).next.value
  map_zero' := by decide
  map_add' a b := by rw [GF256.add_byte, ofByte_xor, next_xor, value_xor]

theorem shift_value (p : Register) : shift p.value = p.next.value :=
  congrArg (fun q => q.next.value) (ofByte_value p)

theorem value_init : init.value = ⟨1⟩ := rfl

/-- The powers are the values of the register. -/
theorem iterate_shift (i : Nat) : shift^[i] ⟨1⟩ = (next^[i] init).value := by
  induction i with
  | zero => rfl
  | succ i ih =>
    rw [Function.iterate_succ_apply', ih, shift_value, ← Function.iterate_succ_apply' next]

theorem iterate_shift_period : shift^[255] ⟨1⟩ = ⟨1⟩ := by
  rw [iterate_shift, iterate_next_period, value_init]

theorem injOn_iterate_shift : Set.InjOn (fun i => shift^[i] ⟨1⟩) (Set.Iio 255) := by
  intro i hi j hj heq
  simp only [iterate_shift] at heq
  have hinj := Function.iterate_injOn_Iio_minimalPeriod (f := next) (x := init)
  rw [minimalPeriod_next] at hinj
  exact hinj hi hj (value_injective heq)

instance : Fintype GF256 :=
  Fintype.ofEquiv (Fin 256) ⟨fun n => ⟨UInt8.ofFin n⟩, fun a => a.byte.toFin,
    fun _ => rfl, fun _ => rfl⟩

theorem card_gf256 : Fintype.card GF256 = 256 :=
  (Fintype.ofEquiv_card _).trans (Fintype.card_fin 256)

theorem iterate_shift_ne_zero (i : Nat) : shift^[i] ⟨1⟩ ≠ 0 := by
  intro hzero
  have hfix : shift^[255 * i] (⟨1⟩ : GF256) = ⟨1⟩ := by
    rw [Function.iterate_mul]
    exact Function.iterate_fixed iterate_shift_period i
  rw [show 255 * i = 254 * i + i by omega, Function.iterate_add_apply, hzero,
    Function.iterate_fixed (map_zero shift)] at hfix
  exact absurd hfix (by decide)

/-- Every byte but zero is a power. -/
theorem exists_iterate_shift (a : GF256) (ha : a ≠ 0) : ∃ i < 255, shift^[i] ⟨1⟩ = a := by
  have himage : (Finset.range 255).image (fun i => shift^[i] ⟨1⟩) =
      Finset.univ.erase (0 : GF256) := by
    apply Finset.eq_of_subset_of_card_le
    · intro b hb
      obtain ⟨i, -, rfl⟩ := Finset.mem_image.mp hb
      exact Finset.mem_erase.mpr ⟨iterate_shift_ne_zero i, Finset.mem_univ _⟩
    · rw [Finset.card_erase_of_mem (Finset.mem_univ _), Finset.card_univ, card_gf256,
        Finset.card_image_of_injOn, Finset.card_range]
      rw [Finset.coe_range]
      exact injOn_iterate_shift
  have hmem : a ∈ (Finset.range 255).image (fun i => shift^[i] (⟨1⟩ : GF256)) := by
    rw [himage]
    exact Finset.mem_erase.mpr ⟨ha, Finset.mem_univ a⟩
  obtain ⟨i, hi, heq⟩ := Finset.mem_image.mp hmem
  exact ⟨i, Finset.mem_range.mp hi, heq⟩

/-! ## What the tables hold -/

theorem initExpTable_fst (n : Nat) : (initExpTable n).1 = next^[n] init := by
  induction n with
  | zero => rfl
  | succ n ih => rw [Function.iterate_succ_apply', ← ih]; rfl

theorem length_initExpTable (n : Nat) : (initExpTable n).2.length = 512 := by
  induction n with
  | zero => rw [initExpTable, List.length_set, List.length_set, List.length_replicate]
  | succ n ih => rw [initExpTable, List.length_set, List.length_set, ih]

/-- The powers that the first `n` turns wrote. -/
theorem getD_initExpTable (hn : n ≤ 255) :
    (∀ i ≤ n, (initExpTable n).2.getD i 0 = (next^[i] init).value) ∧
      ∀ i, 0 < i → i ≤ n → (initExpTable n).2.getD (i + 255) 0 = (next^[i] init).value := by
  induction n with
  | zero =>
    refine ⟨fun i hi => ?_, fun i hpos hi => absurd hpos (Nat.not_lt_of_le hi)⟩
    obtain rfl := Nat.le_zero.mp hi
    have hlt : 0 < (List.replicate 512 (0 : GF256)).length := by
      rw [List.length_replicate]
      exact Nat.zero_lt_succ _
    rw [initExpTable, List.getD_eq_getElem?_getD, List.getElem?_set_ne (Nat.succ_ne_zero _),
      List.getElem?_set_self hlt]
    rfl
  | succ n ih =>
    obtain ⟨hlow, hhigh⟩ := ih (Nat.le_of_succ_le hn)
    have hlen := length_initExpTable n
    have hvalue : (initExpTable n).1.next.value = (next^[n + 1] init).value := by
      rw [initExpTable_fst, Function.iterate_succ_apply']
    simp only [initExpTable, hvalue, List.getD_eq_getElem?_getD, List.getElem?_set, List.length_set,
      hlen] at hlow hhigh ⊢
    constructor
    · intro i hi
      rcases Nat.lt_or_eq_of_le hi with hlt | rfl
      · rw [if_neg (by omega), if_neg (by omega)]
        exact hlow i (Nat.le_of_lt_succ hlt)
      · rw [if_neg (by omega), if_pos rfl, if_pos (by omega), Option.getD_some]
    · intro i hpos hi
      rcases Nat.lt_or_eq_of_le hi with hlt | rfl
      · rw [if_neg (by omega), if_neg (by omega)]
        exact hhigh i hpos (Nat.le_of_lt_succ hlt)
      · rw [if_pos rfl, if_pos (by omega), Option.getD_some]

theorem gexp_eq (hi : i ≤ 510) : gexp i = shift^[i] ⟨1⟩ := by
  obtain ⟨hlow, hhigh⟩ := getD_initExpTable (Nat.le_refl 255)
  rcases Nat.lt_or_ge 255 i with hlt | hle
  · obtain ⟨j, rfl⟩ : ∃ j, i = j + 255 := ⟨i - 255, by omega⟩
    rw [gexp, hhigh j (by omega) (by omega), Function.iterate_add_apply, iterate_shift_period,
      iterate_shift]
  · rw [gexp, hlow i hle, iterate_shift]

/-- The logarithm of a byte but zero is a power that gives it. -/
theorem glog_spec (a : GF256) (ha : a ≠ 0) : glog a < 255 ∧ shift^[glog a] ⟨1⟩ = a := by
  have hbyte : a.byte.toNat ≠ 0 := by
    intro heq
    apply ha
    exact congrArg GF256.mk (UInt8.toNat_inj.mp heq)
  have hentry : glog a = ((List.range 256).find? fun z => gexp z = a).getD 0 := by
    rw [glog, initLogTable, List.getD_eq_getElem?_getD, List.getElem?_map,
      List.getElem?_range a.byte.toNat_lt, Option.map_some, Option.getD_some, if_neg hbyte,
      UInt8.ofNat_toNat]
  obtain ⟨i, hi, hia⟩ := exists_iterate_shift a ha
  have hgexp : gexp i = a := (gexp_eq (by omega)).trans hia
  cases hfind : (List.range 256).find? fun z => gexp z = a with
  | none =>
    have hnone := List.find?_eq_none.mp hfind i (List.mem_range.mpr (by omega))
    exact absurd (decide_eq_true hgexp) hnone
  | some z =>
    rw [hentry, hfind, Option.getD_some]
    have hz : gexp z = a := by simpa using List.find?_some hfind
    have hlt : z < 256 := List.mem_range.mp (List.mem_of_find?_eq_some hfind)
    rw [gexp_eq (by omega)] at hz
    refine ⟨?_, hz⟩
    -- a power before the last turn comes first
    by_contra hge
    obtain ⟨-, as, bs, hsplit, hbefore⟩ := List.find?_eq_some_iff_append.mp hfind
    have hlen : as.length = z := by
      have hget : (List.range 256)[as.length]? = some z := by
        rw [hsplit, List.getElem?_append_right (Nat.le_refl _), Nat.sub_self]
        rfl
      obtain ⟨hlt, heq⟩ := List.getElem?_eq_some_iff.mp hget
      rwa [List.getElem_range] at heq
    have hmem : i ∈ as := by
      have htake : as = (List.range 256).take as.length := by rw [hsplit, List.take_left]
      rw [htake, hlen, List.take_range, List.mem_range]
      omega
    have hne := hbefore i hmem
    rw [decide_eq_true hgexp] at hne
    exact absurd hne (by decide)

/-! ## The field -/

def tables : LogTables GF256 where
  shift := shift
  one := ⟨1⟩
  period := 255
  log := glog
  one_ne_zero := by decide
  iterate_period := iterate_shift_period
  iterate_log a ha := (glog_spec a ha).2
  log_lt a ha := (glog_spec a ha).1

instance : Field GF256 := tables.field

theorem gmult_eq_mul (a b : GF256) : gmult a b = a * b := by
  change gmult a b = tables.mul a b
  rw [gmult, LogTables.mul]
  split
  next => rfl
  next h =>
    obtain ⟨ha, hb⟩ := not_or.mp h
    have hla := (glog_spec a ha).1
    have hlb := (glog_spec b hb).1
    exact gexp_eq (by omega)

theorem ginv_eq_inv (ha : a ≠ 0) : ginv a = a⁻¹ := by
  change ginv a = tables.inv a
  rw [ginv, LogTables.inv, if_neg ha]
  exact gexp_eq (by omega)

/-- The generator of the powers. -/
def alpha : GF256 := ⟨2⟩

theorem shift_eq_mul (a : GF256) : shift a = alpha * a := by
  have halpha : alpha = tables.exp 1 := by decide
  rcases eq_or_ne a 0 with rfl | ha
  · rw [map_zero, mul_zero]
  · rw [halpha, ← tables.exp_log ha]
    change _ = tables.mul _ _
    rw [LogTables.exp_mul_exp, Nat.add_comm]
    exact (tables.iterate_exp 1 (tables.log a)).trans (by rw [Nat.add_comm])

theorem iterate_shift_eq_pow (i : Nat) : shift^[i] ⟨1⟩ = alpha ^ i := by
  induction i with
  | zero => rw [pow_zero]; rfl
  | succ i ih => rw [Function.iterate_succ_apply', ih, shift_eq_mul, pow_succ']

theorem gexp_eq_pow (hi : i ≤ 510) : gexp i = alpha ^ i := by
  rw [gexp_eq hi, iterate_shift_eq_pow]

theorem alpha_pow_period : alpha ^ 255 = 1 := by
  rw [← iterate_shift_eq_pow, iterate_shift_period]
  rfl

theorem alpha_ne_zero : alpha ≠ 0 := by decide

theorem alpha_pow_inj (hi : i < 255) (hj : j < 255) (h : alpha ^ i = alpha ^ j) : i = j := by
  rw [← iterate_shift_eq_pow, ← iterate_shift_eq_pow] at h
  exact injOn_iterate_shift hi hj h

theorem gexp_mod (i : Nat) : gexp (i % 255) = alpha ^ i := by
  have hlt := Nat.mod_lt i (y := 255) (by decide)
  rw [gexp_eq_pow (by omega)]
  calc alpha ^ (i % 255) = alpha ^ (i % 255) * (alpha ^ 255) ^ (i / 255) := by
        rw [alpha_pow_period, one_pow, mul_one]
    _ = alpha ^ i := by rw [← pow_mul, ← pow_add, Nat.mod_add_div]

theorem neg_eq (a : GF256) : -a = a := neg_eq_of_add_eq_zero_left (GF256.add_self a)

instance : CharP GF256 2 := CharTwo.of_one_ne_zero_of_two_eq_zero one_ne_zero
  (one_add_one_eq_two.symm.trans (GF256.add_self 1))

end Rscode
