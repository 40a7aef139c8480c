import FitProjects.BMS.Demultiplexor
import Mathlib.Algebra.BigOperators.Group.Finset.Basic
import Mathlib.Data.Fintype.Prod
import Mathlib.Data.Fintype.BigOperators

/-! # When the loops over the tables end

The loops of `parsePAT`, `parseNIT` and `parsePMT` compare an index of 8 bits with a length of 12
bits: the index can go round without ever having passed the length. Where it goes is decided by
the bytes of the packet alone. The loops over descriptors always end, their index has 16 bits and
their lengths have 12. -/

namespace Demultiplexor

variable {d : Demultiplexor} {payload : Nat → UInt8}

theorem length12_lt (hi lo : UInt8) : (length12 hi lo).toNat < 2 ^ 12 := by
  have hhi : (hi &&& 0xF).toNat ≤ 15 := by
    rw [UInt8.toNat_and]
    exact Nat.and_le_right
  have hlo := lo.toNat_lt
  rw [length12, word16, UInt16.toNat_or, UInt16.toNat_shiftLeft]
  refine Nat.or_lt_two_pow ?_ ?_
  · simp only [UInt8.toNat_toUInt16, Nat.shiftLeft_eq]
    have hshift : (8 : UInt16).toNat % 16 = 8 := rfl
    rw [hshift]
    omega
  · rw [UInt8.toNat_toUInt16]
    omega

/-- All lengths of 12 bits are passed by the index of 16 bits. -/
theorem isSome_parseDescriptors (d : Demultiplexor) (payload : Nat → UInt8) (offset hi lo : UInt8)
    {fuel : Nat} (hfuel : 2 ^ 12 ≤ fuel) :
    (parseDescriptors fuel d payload offset (length12 hi lo)).isSome := by
  rw [parseDescriptors, Option.isSome_map]
  have hlt := length12_lt hi lo
  refine loop.isSome_of_measure (fun s => (length12 hi lo).toNat - s.2.toNat)
    (fun s hs => ⟨_, rfl, ?_⟩) (Nat.lt_of_le_of_lt (Nat.sub_le _ _) (Nat.lt_of_lt_of_le hlt hfuel))
  obtain ⟨d, index⟩ := s
  have hindex : index.toNat < (length12 hi lo).toNat := by simpa using hs
  -- the index does not go round before it has passed the length
  have hadvance : ∀ len : UInt8,
      (index + (len.toUInt16 + 2)).toNat = index.toNat + len.toNat + 2 := by
    intro len
    have hlen := len.toNat_lt
    have htwo : (2 : UInt16).toNat = 2 := rfl
    rw [UInt16.toNat_add, UInt16.toNat_add, UInt8.toNat_toUInt16, htwo]
    omega
  simp only [descriptorEntry, hadvance]
  omega

/-- The test of an index of 8 bits. -/
def below (length : Nat) (index : UInt8) : Bool := decide (index.toNat < length)

theorem below_eq_false {length : Nat} {index : UInt8} :
    below length index = false ↔ length ≤ index.toNat := by
  rw [below, decide_eq_false_iff_not, Nat.not_lt]

theorem toFin_injective : UInt8.toFin.Injective := fun _ _ => UInt8.toFin_inj.mp

/-! ## The program association table -/

/-- The value of the length at the beginning of a section. -/
def sectionLength (payload : Nat → UInt8) : Nat := (length12 (payload 1) (payload 2)).toNat

theorem toNat_iterate_add_four (n : Nat) : ((· + 4)^[n] (0 : UInt8)).toNat = 4 * n % 256 := by
  induction n with
  | zero => rfl
  | succ n ih =>
    have hfour : (4 : UInt8).toNat = 4 := rfl
    rw [Function.iterate_succ_apply', UInt8.toNat_add, ih, hfour]
    omega

/-- The index of `parsePAT` takes the multiples of four up to 252 and starts again. -/
theorem terminates_parsePAT_iff :
    Terminates (parsePAT · d payload) ↔ payload 0 ≠ TS_TABLE_PAT ∨ sectionLength payload ≤ 252 := by
  by_cases htable : payload 0 = TS_TABLE_PAT
  · simp only [parsePAT, htable, ne_eq, not_true, if_false, false_or]
    refine Terminates.map_iff.trans ((loop.terminates_iff Prod.snd (below (sectionLength payload))
      (· + 4) (fun _ => rfl) fun s => ⟨_, rfl, rfl⟩).trans ?_)
    simp only [below_eq_false, toNat_iterate_add_four]
    refine ⟨fun ⟨n, hn⟩ => ?_, fun h => ⟨63, h⟩⟩
    omega
  · simp only [parsePAT, htable, ne_eq, not_false_eq_true, if_true, true_or, iff_true]
    exact ⟨0, rfl⟩

/-! ## The program map tables -/

/-- The place of the entry behind the one at place `i`, as `parsePMT` counts it. -/
def nextStream (payload : Nat → UInt8) (i : Nat) : Nat :=
  let programInfoLength := (length12 (payload 10) (payload 11)).toNat
  let start := (programInfoLength + 12) % 256 + i
  (i + ((length12 (payload (start + 3)) (payload (start + 4))).toNat + 5)) % 256

/-- The 8 bit version of `nextStream`. -/
def nextStream8 (payload : Nat → UInt8) (i : UInt8) : UInt8 :=
  UInt8.ofNat (nextStream payload i.toNat)

theorem toNat_iterate_nextStream8 (n : Nat) :
    ((nextStream8 payload)^[n] 0).toNat = (nextStream payload)^[n] 0 := by
  have hsemi : Function.Semiconj UInt8.toNat (nextStream8 payload) (nextStream payload) := by
    intro i
    rw [nextStream8, UInt8.toNat_ofNat']
    exact Nat.mod_eq_of_lt (Nat.mod_lt _ (by decide))
  exact (hsemi.iterate_right n) 0

theorem pmtEntry_snd (programNumber : UInt16) (s : Demultiplexor × UInt8) :
    (pmtEntry payload programNumber
      (UInt8.ofNat ((length12 (payload 10) (payload 11)).toNat + 12)) s).2 =
        nextStream8 payload s.2 := by
  apply UInt8.toNat_inj.mp
  simp only [pmtEntry, nextStream8, nextStream, UInt8.toNat_add, UInt8.toNat_ofNat',
    Nat.reducePow]
  omega

/-- The index of `parsePMT` passes the length within 256 entries or never. -/
theorem terminates_parsePMT_iff : Terminates (parsePMT · d payload) ↔
    payload 0 ≠ TS_TABLE_PMT ∨
      ∃ k < 256, sectionLength payload ≤ (nextStream payload)^[k] 0 := by
  by_cases htable : payload 0 = TS_TABLE_PMT
  · simp only [parsePMT, htable, ne_eq, not_true, if_false, false_or]
    refine Terminates.map_iff.trans ((loop.terminates_iff Prod.snd (below (sectionLength payload))
      (nextStream8 payload) (fun _ => rfl) fun s => ⟨_, rfl, pmtEntry_snd _ s⟩).trans ?_)
    rw [loop.exists_test_iff _ _ toFin_injective]
    simp only [below_eq_false, toNat_iterate_nextStream8, Fintype.card_fin]
  · simp only [parsePMT, htable, ne_eq, not_false_eq_true, if_true, true_or, iff_true]
    exact ⟨0, rfl⟩

/-! ## The network information table -/

/-- The length of the entries of `parseNIT`. -/
def transportStreamLength (payload : Nat → UInt8) : Nat :=
  let networkLength := (length12 (payload 8) (payload 9)).toNat
  (length12 (payload (networkLength + 10)) (payload (networkLength + 11))).toNat

/-- The length of the descriptors that `parseNIT` reads for entry `k`: it takes the entries to be
six bytes each. -/
def transportDescriptorLen (payload : Nat → UInt8) (k : Nat) : Nat :=
  let networkLength := (length12 (payload 8) (payload 9)).toNat
  let start := (networkLength + 12 + 6 * k + 4) % 256
  (length12 (payload start) (payload (start + 1))).toNat

/-- The variables of the loop of `parseNIT` that decide where it ends. -/
def NITLoop.control (s : NITLoop) : UInt8 × UInt8 := (s.payloadIndex, s.i)

def nitNext (payload : Nat → UInt8) (c : UInt8 × UInt8) : UInt8 × UInt8 :=
  let start := c.1 + 2 + 2
  (start + 2,
    c.2 + UInt8.ofNat ((length12 (payload start.toNat) (payload (start.toNat + 1))).toNat + 6))

theorem nitEntry_control {fuel : Nat} {s s' : NITLoop} (h : nitEntry fuel payload s = some s') :
    s'.control = nitNext payload s.control := by
  obtain ⟨r, -, rfl⟩ := Option.map_eq_some_iff.mp h
  rfl

theorem exists_nitEntry {fuel : Nat} (hfuel : 2 ^ 12 ≤ fuel) (s : NITLoop) :
    ∃ s', nitEntry fuel payload s = some s' ∧ s'.control = nitNext payload s.control := by
  have hsome : (nitEntry fuel payload s).isSome := by
    rw [nitEntry, Option.isSome_map]
    exact isSome_parseDescriptors _ _ _ _ _ hfuel
  obtain ⟨s', hs'⟩ := Option.isSome_iff_exists.mp hsome
  exact ⟨s', hs', nitEntry_control hs'⟩

/-- The values with which `parseNIT` enters its loop. -/
def nitStart (payload : Nat → UInt8) : UInt8 × UInt8 :=
  (UInt8.ofNat ((length12 (payload 8) (payload 9)).toNat + 12), 0)

/-- The index of `parseNIT` is the sum of the lengths read so far. -/
theorem iterate_nitNext (k : Nat) : (nitNext payload)^[k] (nitStart payload) =
    (UInt8.ofNat ((length12 (payload 8) (payload 9)).toNat + 12 + 6 * k),
      UInt8.ofNat (∑ j ∈ Finset.range k, (transportDescriptorLen payload j + 6))) := by
  induction k with
  | zero => rfl
  | succ k ih =>
    generalize hn : (length12 (payload 8) (payload 9)).toNat + 12 = n at ih ⊢
    have hstart : (UInt8.ofNat (n + 6 * k) + 2 + 2).toNat = (n + 6 * k + 4) % 256 := by
      have htwo : (2 : UInt8).toNat = 2 := rfl
      simp only [UInt8.toNat_add, UInt8.toNat_ofNat', htwo, Nat.reducePow]
      omega
    have hnext : UInt8.ofNat (n + 6 * k) + 2 + 2 + 2 = UInt8.ofNat (n + 6 * (k + 1)) := by
      have htwo : (2 : UInt8).toNat = 2 := rfl
      apply UInt8.toNat_inj.mp
      simp only [UInt8.toNat_add, UInt8.toNat_ofNat', htwo, Nat.reducePow]
      omega
    rw [Function.iterate_succ_apply', ih, Finset.sum_range_succ, nitNext]
    simp only [hstart, hnext, transportDescriptorLen, hn]
    exact congrArg (Prod.mk _) (UInt8.ofNat_add _ _).symm

/-- `parseNIT` ends when the index has passed the length. -/
theorem terminates_parseNIT (htable : payload 0 = TS_TABLE_NIT) :
    Terminates (parseNIT · d payload) ↔
      ∃ n, below (transportStreamLength payload) ((nitNext payload)^[n] (nitStart payload)).2 =
        false := by
  simp only [Terminates, parseNIT, htable, ne_eq, not_true, if_false]
  constructor
  · rintro ⟨fuel, h⟩
    obtain ⟨s, hs⟩ := Option.isSome_iff_exists.mp h
    obtain ⟨r, -, hr⟩ := Option.bind_eq_some_iff.mp hs
    obtain ⟨s', hs', -⟩ := Option.map_eq_some_iff.mp hr
    exact loop.exists_of_isSome NITLoop.control (below (transportStreamLength payload) ·.2)
      (nitNext payload) (fun _ => rfl) (fun _ _ => nitEntry_control)
      (Option.isSome_iff_exists.mpr ⟨s', hs'⟩)
  · rintro ⟨n, hn⟩
    have hfuel := Nat.le_max_left (2 ^ 12) (n + 1)
    refine ⟨max (2 ^ 12) (n + 1), ?_⟩
    obtain ⟨r, hr⟩ := Option.isSome_iff_exists.mp
      (isSome_parseDescriptors { d with networkID := word16 (payload 3) (payload 4) } payload 10
        (payload 8) (payload 9) hfuel)
    rw [hr, Option.bind_some, Option.isSome_map]
    exact loop.isSome_of_test NITLoop.control (below (transportStreamLength payload) ·.2)
      (nitNext payload) (fun _ => rfl) (fun s _ => exists_nitEntry hfuel s) hn
      (Nat.le_max_right _ _)

/-- The sums of the lengths of the entries of `parseNIT` pass the length of the table, in 8 bits. -/
theorem terminates_parseNIT_iff : Terminates (parseNIT · d payload) ↔
    payload 0 ≠ TS_TABLE_NIT ∨ ∃ k < 256 * 256, transportStreamLength payload ≤
      (∑ j ∈ Finset.range k, (transportDescriptorLen payload j + 6)) % 256 := by
  by_cases htable : payload 0 = TS_TABLE_NIT
  · rw [terminates_parseNIT htable, or_iff_right (not_not.mpr htable),
      loop.exists_test_iff (below (transportStreamLength payload) ·.2) (nitNext payload)
        (toFin_injective.prodMap toFin_injective)]
    simp only [iterate_nitNext, below_eq_false, UInt8.toNat_ofNat', Fintype.card_prod,
      Fintype.card_fin, Nat.reducePow]
  · simp only [parseNIT, htable, ne_eq, not_false_eq_true, if_true, true_or, iff_true]
    exact ⟨0, rfl⟩

/-! ## Services -/

/-- The loop over the descriptors of a service is left in its first pass. -/
theorem terminates_parseServiceDescriptor (offset length serviceID : UInt16) :
    Terminates (parseServiceDescriptor · d offset length serviceID) := by
  refine Terminates.map_iff.mpr ⟨2, ?_⟩
  refine loop.isSome_of_measure (fun s => if s.left then 0 else 1) (fun s hs => ⟨_, rfl, ?_⟩)
    Nat.one_lt_two
  have hleft : s.left = false := by
    rw [Bool.and_eq_true] at hs
    simpa using hs.1
  simp [serviceEntry, hleft]

/-- Which of the loops end. Lengths of descriptors are read from 12 bits by all callers. -/
theorem tables_terminate_iff (d : Demultiplexor) (payload : Nat → UInt8) :
    (Terminates (parsePAT · d payload) ↔
        payload 0 ≠ TS_TABLE_PAT ∨ sectionLength payload ≤ 252) ∧
      (Terminates (parseNIT · d payload) ↔
        payload 0 ≠ TS_TABLE_NIT ∨ ∃ k < 256 * 256, transportStreamLength payload ≤
          (∑ j ∈ Finset.range k, (transportDescriptorLen payload j + 6)) % 256) ∧
      (Terminates (parsePMT · d payload) ↔
        payload 0 ≠ TS_TABLE_PMT ∨
          ∃ k < 256, sectionLength payload ≤ (nextStream payload)^[k] 0) ∧
      (∀ offset hi lo : UInt8,
        Terminates (parseDescriptors · d payload offset (length12 hi lo))) ∧
      ∀ offset length serviceID : UInt16,
        Terminates (parseServiceDescriptor · d offset length serviceID) :=
  ⟨terminates_parsePAT_iff, terminates_parseNIT_iff, terminates_parsePMT_iff,
    fun _ _ _ => ⟨2 ^ 12, isSome_parseDescriptors d payload _ _ _ (Nat.le_refl _)⟩,
    terminates_parseServiceDescriptor⟩

/-- A section of 253 bytes. -/
theorem not_terminates_parsePAT :
    ¬ Terminates (parsePAT · init fun i => [0x00, 0xB0, 0xFD].getD i 0) := by
  rw [terminates_parsePAT_iff]
  decide

end Demultiplexor
