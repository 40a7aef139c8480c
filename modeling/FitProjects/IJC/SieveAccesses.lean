import FitProjects.IJC.Eratosthenes

/-! # The accesses of the sieve

`Eratosthenes` of `IJC/proj1/eratosthenes.c` once more, with the arithmetic of `unsigned long`, with
accesses that fail outside of the array and with a log of the indexes that `GetBit` and `SetBit`
compare with the size word. It computes what the sieve on unbounded numbers computes
(`sieve_refines`), so what is known of the latter carries over. -/

namespace SieveAccesses

open BitArray

/-- The array, and the indexes with the sizes that they were compared with. -/
structure Sieve where
  pole : List (BitVec 64)
  log : List (Nat × Nat)

/-- The product of two numbers of type `unsigned long`. -/
def mulUL (i n : Nat) : Nat := i * n % 2 ^ 64

/-- `++` on `unsigned long`. -/
def succUL (n : Nat) : Nat := (n + 1) % 2 ^ 64

namespace Sieve

def record (s : Sieve) (index : Nat) : Sieve :=
  { s with log := s.log ++ [(index, size s.pole)] }

/-- `GetBit`; nothing when it ends the program or reads a word outside of the array. -/
def getBit (s : Sieve) (index : Nat) : Option (Bool × Sieve) :=
  if size s.pole ≤ index then none
  else if index / 64 + 1 < s.pole.length then
    some (BitArray.getBit s.pole index, s.record index)
  else none

/-- `SetBit`. -/
def setBit (s : Sieve) (index : Nat) (b : Bool) : Option Sieve :=
  if size s.pole ≤ index then none
  else if index / 64 + 1 < s.pole.length then
    some { s.record index with pole := BitArray.setBit s.pole index b }
  else none

/-- `while (i*n < BitArraySize(pole))`. -/
def markMultiples (i : Nat) : Nat → Nat → Sieve → Option Sieve
  | 0, _, _ => none
  | fuel + 1, n, s =>
    if mulUL i n < size s.pole then do
      let s ← s.setBit (mulUL i n) true
      markMultiples i fuel (succUL n) s
    else some s

/-- One turn of the `for` loop over `i`. -/
def markTurn (fuel i : Nat) (s : Sieve) : Option Sieve := do
  let (bit, s) ← s.getBit i
  if bit then some s else markMultiples i fuel 2 s

/-- The `for` loop over `i`. -/
def markFrom (max fuel : Nat) : Nat → Nat → Sieve → Option Sieve
  | 0, _, _ => none
  | rounds + 1, i, s =>
    if i ≤ max then do
      let s ← markTurn fuel i s
      markFrom max fuel rounds (succUL i) s
    else some s

/-- `Eratosthenes`. -/
def eratosthenes (fuel : Nat) (pole : List (BitVec 64)) : Option Sieve := do
  let s ← setBit ⟨pole, []⟩ 0 true
  let s ← s.setBit 1 true
  markFrom (Nat.sqrt (size s.pole)) fuel fuel 2 s

end Sieve

open Sieve

variable {N i n fuel k : Nat} {s : Sieve} {p : List (BitVec 64)} {b : Bool}

/-- All indexes so far were within the `N` bits, and the size word was `N`. -/
structure Inside (N : Nat) (s : Sieve) : Prop where
  shaped : Eratosthenes.Shaped N s.pole
  log : ∀ x ∈ s.log, x.1 < N ∧ x.2 = N

theorem Inside.record (h : Inside N s) (hi : i < N) :
    ∀ x ∈ (s.record i).log, x.1 < N ∧ x.2 = N := by
  intro x hx
  rcases List.mem_append.mp hx with hx | hx
  · exact h.log x hx
  · obtain rfl := List.mem_singleton.mp hx
    exact ⟨hi, h.shaped.size⟩

theorem Inside.getBit_eq (h : Inside N s) (hi : i < N) :
    s.getBit i = some (BitArray.getBit s.pole i, s.record i) := by
  have hsize := h.shaped.size
  rw [Sieve.getBit, if_neg (by omega), if_pos (h.shaped.lt_length hi)]

theorem Inside.exists_setBit (h : Inside N s) (hi : i < N) (b : Bool) :
    ∃ s', s.setBit i b = some s' ∧ setBitChecked s.pole i b = .ok s'.pole ∧ Inside N s' := by
  have hsize := h.shaped.size
  obtain ⟨p', hp', hshaped, -⟩ := h.shaped.setBit (b := b) hi
  have hset : setBitChecked s.pole i b = .ok (BitArray.setBit s.pole i b) := if_neg (by omega)
  obtain rfl := Except.ok.inj (hset.symm.trans hp')
  refine ⟨{ s.record i with pole := BitArray.setBit s.pole i b }, ?_, hp', hshaped, h.record hi⟩
  rw [Sieve.setBit, if_neg (by omega), if_pos (h.shaped.lt_length hi)]

/-- No product overflows, and the loop ends. -/
theorem markMultiples_refines (turns : Nat) (hN : N * N < 2 ^ 64) (hi : 2 ≤ i) (hiN : i ≤ N)
    (h : Inside N s) (hn : n ≤ N) (hfuel : N < n + fuel) (hturns : N ≤ n + turns) :
    ∃ s', markMultiples i fuel n s = some s' ∧
      Eratosthenes.markMultiples i turns n s.pole = .ok s'.pole ∧ Inside N s' := by
  induction fuel generalizing n s turns with
  | zero => omega
  | succ fuel ih =>
    have hle : i * n ≤ N * N := Nat.mul_le_mul hiN hn
    have hmul : mulUL i n = i * n := Nat.mod_eq_of_lt (by omega)
    have hNN : N ≤ N * N := Nat.le_mul_self N
    rw [markMultiples, hmul, h.shaped.size]
    split
    · next hlt =>
      have hnN : n < N := lt_of_le_of_lt (Nat.le_mul_of_pos_left n (by omega)) hlt
      obtain ⟨turns, rfl⟩ := Nat.exists_eq_add_one.mpr (show 0 < turns by omega)
      obtain ⟨s₁, hset, hset', h₁⟩ := h.exists_setBit hlt true
      have hsucc : succUL n = n + 1 := Nat.mod_eq_of_lt (by omega)
      obtain ⟨s', hrun, hrun', h'⟩ := ih turns h₁ (n := n + 1) (by omega) (by omega)
        (by omega)
      refine ⟨s', ?_, ?_, h'⟩
      · rw [hset, hsucc]
        exact hrun
      · rw [Eratosthenes.markMultiples, h.shaped.size, if_pos hlt, hset']
        exact hrun'
    · next hge =>
      refine ⟨s, rfl, ?_, h⟩
      cases turns with
      | zero => rfl
      | succ turns => rw [Eratosthenes.markMultiples, h.shaped.size, if_neg hge]

theorem markFrom_refines (max rounds : Nat) (hN : N * N < 2 ^ 63) (hmax : max < N)
    (hfuel : N ≤ fuel) (hi : 2 ≤ i) (hi' : i ≤ max + 1) (hrounds : max + 1 < i + rounds)
    (h : Inside N s) : ∃ s', markFrom max fuel rounds i s = some s' ∧
      Eratosthenes.markFrom (max + 1 - i) i s.pole = .ok s'.pole ∧ Inside N s' := by
  induction rounds generalizing i s with
  | zero => omega
  | succ rounds ih =>
    have hNN : N ≤ N * N := Nat.le_mul_self N
    rw [markFrom]
    split
    · next hle =>
      have hiN : i < N := by omega
      have hsucc : succUL i = i + 1 := Nat.mod_eq_of_lt (by omega)
      have hsize := h.shaped.size
      have hget : getBitChecked s.pole i = .ok (BitArray.getBit s.pole i) := if_neg (by omega)
      have hrecord : Inside N (s.record i) := ⟨h.shaped, h.record hiN⟩
      obtain ⟨s₁, hturn, hturn', h₁⟩ : ∃ s₁, s.markTurn fuel i = some s₁ ∧
          Eratosthenes.markTurn i s.pole = .ok s₁.pole ∧ Inside N s₁ := by
        rw [Eratosthenes.markTurn, hget, Sieve.markTurn, h.getBit_eq hiN]
        cases hbit : BitArray.getBit s.pole i with
        | true => exact ⟨s.record i, rfl, rfl, hrecord⟩
        | false =>
          exact markMultiples_refines (size s.pole) (by omega) hi hiN.le hrecord (by omega)
            (by omega) (by omega)
      have hturns : max + 1 - i = max + 1 - (i + 1) + 1 := by omega
      obtain ⟨s', hrun, hrun', h'⟩ := ih (i := i + 1) (by omega) (by omega) (by omega) h₁
      refine ⟨s', ?_, ?_, h'⟩
      · rw [hturn, hsucc]
        exact hrun
      · rw [hturns, Eratosthenes.markFrom, hturn']
        exact hrun'
    · next hgt =>
      refine ⟨s, rfl, ?_, h⟩
      rw [Nat.sub_eq_zero_of_le (by omega)]
      rfl

/-- The sieve on `unsigned long` numbers computes what the sieve on unbounded numbers computes. -/
theorem sieve_refines (h2 : 2 ≤ N) (hN : N * N < 2 ^ 63) (hfuel : N < fuel) :
    ∃ s, Sieve.eratosthenes fuel (bitArray N) = some s ∧
      Eratosthenes.eratosthenes (bitArray N) = .ok s.pole ∧ Inside N s := by
  have hNN : N ≤ N * N := Nat.le_mul_self N
  have h0 : Inside N ⟨bitArray N, []⟩ :=
    ⟨Eratosthenes.shaped_bitArray (by omega), fun x hx => absurd hx List.not_mem_nil⟩
  obtain ⟨s₁, hset, hset', h₁⟩ := h0.exists_setBit (i := 0) (by omega) true
  obtain ⟨s₂, hset₁, hset₁', h₂⟩ := h₁.exists_setBit (i := 1) (by omega) true
  have hsqrt := Nat.sqrt_lt_self (show 1 < N by omega)
  have hpos : 0 < Nat.sqrt N := Nat.sqrt_pos.mpr (by omega)
  obtain ⟨s, hrun, hrun', h⟩ := markFrom_refines (Nat.sqrt N) fuel hN hsqrt hfuel.le (le_refl 2)
    (by omega) (by omega) h₂
  refine ⟨s, ?_, ?_, h⟩
  · rw [Sieve.eratosthenes, hset, Option.bind_eq_bind, Option.bind_some, hset₁,
      Option.bind_some, h₂.shaped.size]
    exact hrun
  · have hsize := h₂.shaped.size
    rw [Eratosthenes.eratosthenes, hset']
    change (setBitChecked s₁.pole 1 true >>= _) = _
    rw [hset₁']
    change Eratosthenes.markFrom (Nat.sqrt (size s₂.pole) - 1) 2 s₂.pole = _
    rw [hsize]
    exact hrun'

/-- For numbers whose square is below `2 ^ 63` the sieve ends and leaves zero the bits of the prime
numbers and no others. All indexes were within the bits and their words within the array, and the
size word, with which they were compared, stayed as it was. -/
theorem sieve_primes (h2 : 2 ≤ N) (hN : N * N < 2 ^ 63) (hfuel : N < fuel) :
    ∃ s, Sieve.eratosthenes fuel (bitArray N) = some s ∧
      (∀ k < N, BitArray.getBit s.pole k = false ↔ Nat.Prime k) ∧
      (∀ x ∈ s.log, x.1 < N ∧ x.1 / 64 + 1 < ulElements N + 1 ∧ x.2 = N) ∧
      s.pole.length = ulElements N + 1 ∧ size s.pole = N := by
  obtain ⟨s, hrun, hrun', h⟩ := sieve_refines h2 hN hfuel
  have hNN : N ≤ N * N := Nat.le_mul_self N
  obtain ⟨p, hp, -, hbits⟩ := Eratosthenes.eratosthenes_spec h2 (by omega)
  obtain rfl := Except.ok.inj (hrun'.symm.trans hp)
  refine ⟨s, hrun, fun k hk => ?_, fun x hx => ?_, h.shaped.length, h.shaped.size⟩
  · rw [hbits k hk, Bool.not_eq_false', decide_eq_true_iff]
  · obtain ⟨hlt, hsize⟩ := h.log x hx
    have hword := h.shaped.lt_length hlt
    rw [h.shaped.length] at hword
    exact ⟨hlt, hword, hsize⟩

/-- A size that is a square and a multiple of the word size. -/
theorem sieve_primes_64 :
    ∃ s, Sieve.eratosthenes 65 (bitArray 64) = some s ∧
      (∀ k < 64, BitArray.getBit s.pole k = false ↔ Nat.Prime k) ∧
      (∀ x ∈ s.log, x.1 < 64 ∧ x.1 / 64 + 1 < 2 ∧ x.2 = 64) ∧
      s.pole.length = 2 ∧ size s.pole = 64 :=
  sieve_primes (by decide) (by decide) (by decide)

end SieveAccesses
