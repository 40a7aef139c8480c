import Mathlib.Data.Nat.Prime.Basic
import Mathlib.Data.Nat.Sqrt
import Mathlib.Data.List.Basic

/-! # Bit arrays and the sieve of Eratosthenes

The macros of `bit-array.h`, for words of any width: the first element of the array is its size in
bits, and bit `i` is in element `i / w + 1`. `eratosthenes_spec` says that the sieve leaves the bits
of the prime numbers zero and sets all others. -/

namespace BitArray

variable {w : Nat}

/-- `DU1__GET_BIT` -/
def getBit (p : List (BitVec w)) (i : Nat) : Bool := (p.getD (i / w + 1) 0).getLsbD (i % w)

/-- `DU1__SET_BIT` -/
def setBit (p : List (BitVec w)) (i : Nat) (b : Bool) : List (BitVec w) :=
  p.modify (i / w + 1) fun x =>
    if b then x ||| BitVec.twoPow w (i % w) else x &&& ~~~BitVec.twoPow w (i % w)

/-- `BitArraySize` -/
def size (p : List (BitVec 64)) : Nat := (p.getD 0 0).toNat

/-- The message of `FatalError` for an index outside the array. -/
def outside (p : List (BitVec 64)) (index : Nat) : String :=
  "Index " ++ toString index ++ " mimo rozsah 0.." ++ toString ((size p : Int) - 1)

/-- `GetBit` -/
def getBitChecked (p : List (BitVec 64)) (index : Nat) : Except String Bool :=
  if size p ≤ index then .error (outside p index) else .ok (getBit p index)

/-- `SetBit` -/
def setBitChecked (p : List (BitVec 64)) (index : Nat) (b : Bool) :
    Except String (List (BitVec 64)) :=
  if size p ≤ index then .error (outside p index) else .ok (setBit p index b)

/-- `UL_ELEMENTS` -/
def ulElements (n : Nat) : Nat := if n % 64 = 0 then n / 64 else n / 64 + 1

/-- `BitArray(jmeno_pole, velikost)` -/
def bitArray (n : Nat) : List (BitVec 64) := BitVec.ofNat 64 n :: List.replicate (ulElements n) 0

theorem getBit_setBit {p : List (BitVec w)} (hw : 0 < w) (hi : i / w + 1 < p.length) :
    getBit (setBit p i b) j = if j = i then b else getBit p j := by
  have hmod := Nat.mod_lt i hw
  have hmod' := Nat.mod_lt j hw
  have hij : j = i ↔ i / w + 1 = j / w + 1 ∧ j % w = i % w := by
    refine ⟨fun h => h ▸ ⟨rfl, rfl⟩, fun ⟨hd, hm⟩ => ?_⟩
    rw [← Nat.div_add_mod j w, ← Nat.div_add_mod i w, hm, Nat.succ.inj hd]
  simp only [getBit, setBit, List.getD_eq_getElem?_getD, List.getElem?_modify]
  by_cases hd : i / w + 1 = j / w + 1
  · rw [← hd, List.getElem?_eq_getElem hi]
    by_cases hm : j % w = i % w
    · rw [if_pos (hij.mpr ⟨hd, hm⟩)]
      cases b <;> simp [hm, hmod]
    · rw [if_neg fun h => hm (hij.mp h).2]
      cases b <;> simp [hmod', hm]
  · have hne : j ≠ i := fun h => hd (hij.mp h).1
    have hd' : ¬ i / w = j / w := fun h => hd (congrArg (· + 1) h)
    simp [hd', hne]

@[simp] theorem length_setBit {p : List (BitVec w)} : (setBit p i b).length = p.length :=
  List.length_modify ..

@[simp] theorem size_setBit : size (setBit p i b) = size p := by
  simp [size, setBit]

/-- Setting a bit to the value it has. -/
theorem setBit_getBit {p : List (BitVec w)} : setBit p i (getBit p i) = p := by
  refine List.ext_getElem? fun k => ?_
  simp only [setBit, List.getElem?_modify]
  by_cases hk : i / w + 1 = k
  · subst hk
    cases hx : p[i / w + 1]? with
    | none => simp
    | some x =>
      have hbit : getBit p i = x.getLsbD (i % w) := by
        rw [getBit, List.getD_eq_getElem?_getD, hx, Option.getD_some]
      rw [hbit]
      simp only [if_true, Option.map_eq_map, Option.map_some, Option.some.injEq]
      refine BitVec.eq_of_getLsbD_eq fun j hj => ?_
      by_cases hj' : i % w = j
      · subst hj'
        cases h : x.getLsbD (i % w) <;> simp [h]
      · split <;> simp [Ne.symm hj', hj]
  · simp [hk]

end BitArray

namespace Eratosthenes

open BitArray

/-- `while (i*n < BitArraySize(pole))`, at most `fuel` turns. -/
def markMultiples (i : Nat) : Nat → Nat → List (BitVec 64) → Except String (List (BitVec 64))
  | 0, _, pole => .ok pole
  | fuel + 1, n, pole =>
    if i * n < size pole then do
      let pole ← setBitChecked pole (i * n) true
      markMultiples i fuel (n + 1) pole
    else .ok pole

/-- One turn of the `for` loop over `i`. -/
def markTurn (i : Nat) (pole : List (BitVec 64)) : Except String (List (BitVec 64)) := do
  let bit ← getBitChecked pole i
  if bit then .ok pole else markMultiples i (size pole) 2 pole

/-- The `for` loop over `i`, for `turns` turns. -/
def markFrom : Nat → Nat → List (BitVec 64) → Except String (List (BitVec 64))
  | 0, _, pole => .ok pole
  | turns + 1, i, pole => do
    let pole ← markTurn i pole
    markFrom turns (i + 1) pole

/-- `Eratosthenes` -/
def eratosthenes (pole : List (BitVec 64)) : Except String (List (BitVec 64)) := do
  let pole ← setBitChecked pole 0 true
  let pole ← setBitChecked pole 1 true
  markFrom (Nat.sqrt (size pole) - 1) 2 pole

/-- A bit array of `n` bits. -/
structure Shaped (n : Nat) (p : List (BitVec 64)) : Prop where
  size : size p = n
  length : p.length = ulElements n + 1

theorem Shaped.lt_length (h : Shaped n p) (hi : i < n) : i / 64 + 1 < p.length := by
  rw [h.length, ulElements]
  split <;> omega

/-- Setting a bit within the array. -/
theorem Shaped.setBit (h : Shaped n p) (hi : i < n) : ∃ p', setBitChecked p i b = .ok p' ∧
    Shaped n p' ∧ ∀ k, getBit p' k = if k = i then b else getBit p k := by
  refine ⟨BitArray.setBit p i b, if_neg (by rw [h.size]; omega), ⟨?_, ?_⟩, fun k => ?_⟩
  · rw [size_setBit, h.size]
  · rw [length_setBit, h.length]
  · exact getBit_setBit (by decide) (h.lt_length hi)

theorem shaped_bitArray (hn : n < 2 ^ 64) : Shaped n (bitArray n) :=
  ⟨by simpa [BitArray.size, bitArray] using hn, by simp [bitArray]⟩

theorem getBit_bitArray : getBit (bitArray n) k = false := by
  rw [getBit, bitArray, List.getD_cons_succ, List.getD_eq_getElem?_getD, List.getElem?_replicate]
  split <;> simp

/-- The inner loop sets the bits of the multiples from `n` on. -/
theorem markMultiples_spec (h : Shaped N p) (hi : 0 < i) (hfuel : N ≤ n + fuel) :
    ∃ p', markMultiples i fuel n p = .ok p' ∧ Shaped N p' ∧
      ∀ k < N, getBit p' k = true ↔ getBit p k = true ∨ ∃ m, n ≤ m ∧ k = i * m := by
  induction fuel generalizing n p with
  | zero =>
    refine ⟨p, rfl, h, fun k hk => ⟨.inl, ?_⟩⟩
    rintro (hbit | ⟨m, hm, rfl⟩)
    · exact hbit
    · have := Nat.le_mul_of_pos_left m hi
      omega
  | succ fuel ih =>
    rw [markMultiples, h.size]
    split
    next hlt =>
      obtain ⟨p', hp', h', hbits⟩ := h.setBit (b := true) hlt
      obtain ⟨p'', hp'', h'', hbits'⟩ := ih h' (n := n + 1) (by omega)
      refine ⟨p'', by rw [hp']; exact hp'', h'', fun k hk => ?_⟩
      rw [hbits' k hk, hbits]
      constructor
      · rintro (hbit | ⟨m, hm, rfl⟩)
        · split at hbit
          next hk => exact .inr ⟨n, Nat.le_refl n, hk⟩
          next => exact .inl hbit
        · exact .inr ⟨m, Nat.le_of_succ_le hm, rfl⟩
      · rintro (hbit | ⟨m, hm, rfl⟩)
        · rw [hbit]
          simp
        · rcases Nat.eq_or_lt_of_le hm with rfl | hm
          · simp
          · exact .inr ⟨m, hm, rfl⟩
    next hge =>
      refine ⟨p, rfl, h, fun k hk => ⟨.inl, ?_⟩⟩
      rintro (hbit | ⟨m, hm, rfl⟩)
      · exact hbit
      · have := Nat.mul_le_mul_left i hm
        omega

/-- What is marked when the multiples of the numbers below `i` are. -/
def Composite (i k : Nat) : Prop := ∃ d m, 2 ≤ d ∧ d < i ∧ 2 ≤ m ∧ k = d * m

/-- The bits that are set when the outer loop is at `i`. -/
def Marked (N i : Nat) (p : List (BitVec 64)) : Prop :=
  ∀ k < N, getBit p k = true ↔ k < 2 ∨ Composite i k

/-- A number that is marked is composite, and its multiples are marked. -/
theorem composite_succ (hi : i < N) (h : Marked N i p) (hbit : getBit p i = true) (h2 : 2 ≤ i) :
    Composite (i + 1) k ↔ Composite i k := by
  constructor
  · rintro ⟨d, m, hd, hlt, hm, rfl⟩
    rcases Nat.lt_or_eq_of_le (Nat.le_of_lt_succ hlt) with hlt | rfl
    · exact ⟨d, m, hd, hlt, hm, rfl⟩
    · obtain ⟨d', m', hd', hlt', hm', hk⟩ := ((h d hi).mp hbit).resolve_left (by omega)
      refine ⟨d', m' * m, hd', hlt', ?_, by rw [hk, Nat.mul_assoc]⟩
      exact hm'.trans (Nat.le_mul_of_pos_right m' (by omega))
  · rintro ⟨d, m, hd, hlt, hm, rfl⟩
    exact ⟨d, m, hd, Nat.lt_succ_of_lt hlt, hm, rfl⟩

/-- One turn of the outer loop. -/
theorem marked_succ (h2 : 2 ≤ i) (hi : i < N) (h : Shaped N p) (hm : Marked N i p) :
    ∃ p', markTurn i p = .ok p' ∧ Shaped N p' ∧ Marked N (i + 1) p' := by
  have hget : getBitChecked p i = .ok (getBit p i) := if_neg (by rw [h.size]; omega)
  rw [markTurn, hget]
  cases hbit : getBit p i with
  | true => exact ⟨p, rfl, h, fun k hk => (hm k hk).trans (by rw [composite_succ hi hm hbit h2])⟩
  | false =>
    have hfuel : N ≤ 2 + size p := by
      rw [h.size]
      omega
    obtain ⟨p', hp', h', hbits⟩ := markMultiples_spec h
      (Nat.lt_of_lt_of_le Nat.zero_lt_two h2) hfuel
    refine ⟨p', hp', h', fun k hk => ?_⟩
    rw [hbits k hk, hm k hk, or_assoc]
    refine or_congr_right ⟨?_, ?_⟩
    · rintro (⟨d, m, hd, hlt, hm2, rfl⟩ | ⟨m, hm2, rfl⟩)
      · exact ⟨d, m, hd, Nat.lt_succ_of_lt hlt, hm2, rfl⟩
      · exact ⟨i, m, h2, Nat.lt_succ_self i, hm2, rfl⟩
    · rintro ⟨d, m, hd, hlt, hm2, rfl⟩
      rcases Nat.lt_or_eq_of_le (Nat.le_of_lt_succ hlt) with hlt | rfl
      · exact .inl ⟨d, m, hd, hlt, hm2, rfl⟩
      · exact .inr ⟨m, hm2, rfl⟩

/-- The outer loop. -/
theorem markFrom_spec (h2 : 2 ≤ i) (hi : i + turns ≤ N) (h : Shaped N p) (hm : Marked N i p) :
    ∃ p', markFrom turns i p = .ok p' ∧ Shaped N p' ∧ Marked N (i + turns) p' := by
  induction turns generalizing i p with
  | zero => exact ⟨p, rfl, h, hm⟩
  | succ turns ih =>
    obtain ⟨p', hp', h', hm'⟩ := marked_succ h2 (by omega) h hm
    obtain ⟨p'', hp'', h'', hm''⟩ := ih (i := i + 1) (by omega) (by omega) h' hm'
    refine ⟨p'', ?_, h'', by rwa [Nat.add_right_comm, Nat.add_assoc] at hm''⟩
    rw [markFrom, hp']
    exact hp''

/-- A number below `N` is prime unless it has a divisor up to the root of `N`. -/
theorem marked_iff_not_prime (hk : k < N) :
    (k < 2 ∨ Composite (Nat.sqrt N + 1) k) ↔ ¬ Nat.Prime k := by
  constructor
  · rintro (hk2 | ⟨d, m, hd, -, hm, rfl⟩)
    · exact fun hp => Nat.not_le.mpr hk2 hp.two_le
    · exact Nat.not_prime_mul (by omega) (by omega)
  · intro hp
    refine (Nat.lt_or_ge k 2).imp_right fun hk2 => ?_
    have hd := (Nat.minFac_prime (show k ≠ 1 by omega)).two_le
    have hsq : k.minFac * k.minFac ≤ k := by
      rw [← Nat.pow_two]
      exact Nat.minFac_sq_le_self (by omega) hp
    have hm : k.minFac ≤ k / k.minFac := (Nat.le_div_iff_mul_le (by omega)).mpr hsq
    refine ⟨k.minFac, k / k.minFac, hd, ?_, hd.trans hm,
      (Nat.mul_div_cancel' k.minFac_dvd).symm⟩
    exact Nat.lt_succ_of_le (Nat.le_sqrt.mpr (hsq.trans hk.le))

/-- The sieve leaves zero the bits of the prime numbers and no others. -/
theorem eratosthenes_spec (h2 : 2 ≤ N) (hN : N < 2 ^ 64) :
    ∃ p, eratosthenes (bitArray N) = .ok p ∧ size p = N ∧
      ∀ k < N, getBit p k = !decide (Nat.Prime k) := by
  obtain ⟨p0, hp0, h0, hbits0⟩ := (shaped_bitArray hN).setBit (i := 0) (b := true) (by omega)
  obtain ⟨p1, hp1, h1, hbits1⟩ := h0.setBit (i := 1) (b := true) (by omega)
  have hmarked : Marked N 2 p1 := by
    intro k hk
    have hnone : ¬ Composite 2 k := fun ⟨d, _, hd, hlt, _⟩ => absurd hd (Nat.not_le.mpr hlt)
    have h01 : k < 2 ↔ k = 1 ∨ k = 0 := by omega
    rw [hbits1, hbits0, getBit_bitArray, h01]
    by_cases hk1 : k = 1 <;> by_cases hk0 : k = 0 <;> simp [hk1, hk0, hnone]
  have hroot := Nat.sqrt_lt_self (show 1 < N by omega)
  have hpos : 0 < Nat.sqrt N := Nat.sqrt_pos.mpr (by omega)
  have hturns : 2 + (Nat.sqrt N - 1) ≤ N := by omega
  obtain ⟨p, hp, hshape, hm⟩ := markFrom_spec (Nat.le_refl 2) hturns h1 hmarked
  rw [show 2 + (Nat.sqrt N - 1) = Nat.sqrt N + 1 by omega] at hm
  refine ⟨p, ?_, hshape.size, fun k hk => ?_⟩
  · rw [← h1.size] at hp
    rw [eratosthenes, hp0]
    change (setBitChecked p0 1 true >>= _) = _
    rw [hp1]
    exact hp
  · have hprime := (hm k hk).trans (marked_iff_not_prime hk)
    cases hbit : getBit p k with
    | true => simpa [hbit] using hprime
    | false => simpa [hbit] using hprime

end Eratosthenes
