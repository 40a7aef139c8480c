import FitProjects.IJC.Eratosthenes
import Mathlib.NumberTheory.PrimeCounting

/-! # Hiding a text in an image

`EncodeMessage` of `steg-encode.c` and `PrintMessage` of `steg-decode.c`: both walk over the image
bytes at prime indexes, eight of them for a character and the least significant bit first. The
encoder copies each bit of the character onto itself (`setBit_getBit`), so it never changes the
image (`encodeMessage_eq`); the decoder reads what the image carries (`readBits_done_iff`). -/

namespace Steganography

open BitArray Eratosthenes

/-- `MAX_LIMIT` -/
@[irreducible] def maxLimit : Nat := 1000 * 1000 * 3

theorem maxLimit_eq : maxLimit = 3000000 := by
  unfold maxLimit
  rfl

/-- `struct ppm`, as `ppm_read` makes it. -/
structure Ppm where
  xsize : Nat
  ysize : Nat
  data : List (BitVec 8)
  length_eq : data.length = 3 * xsize * ysize % 2 ^ 32

/-- `isprint` in the C locale. -/
def isprint (c : BitVec 8) : Bool := 32 ≤ c.toNat ∧ c.toNat ≤ 126

/-- How a call ends: it returns or leaves a text on the output, it calls `FatalError`, or it reads
outside an array. -/
inductive Outcome
  | done (bytes : List (BitVec 8))
  | fatal (out : List (BitVec 8)) (msg : String)
  | undefined
  deriving DecidableEq, Repr

/-- What follows the sieve, whose error ends the program. -/
def afterSieve (f : List (BitVec 64) → Outcome) : Except String (List (BitVec 64)) → Outcome
  | .error msg => .fatal [] msg
  | .ok primes => f primes

/-- The variables of the loop of `EncodeMessage`. -/
structure EncodeState where
  data : List (BitVec 8)
  znak : List (BitVec 8)
  j : Nat
  n : Nat
  ended : Bool

/-- The loop of `EncodeMessage` from `i` on, for `turns` turns. -/
def encodeLoop (bound : Nat) (primes : List (BitVec 64)) (text : List (BitVec 8)) :
    Nat → Nat → EncodeState → Outcome
  | 0, _, s => .done s.data
  | turns + 1, i, s =>
    if bound < i then .done s.data
    else match getBitChecked primes i with
      | .error msg => .fatal [] msg
      | .ok true => encodeLoop bound primes text turns (i + 1) s
      | .ok false =>
        match s.data[i]? with
        | none => .undefined
        | some byte =>
          let encode : List (BitVec 8) := [8, byte]
          let znak := setBit s.znak s.j (getBit s.znak s.j)
          let data := s.data.set i (encode.getD 1 0)
          if s.j + 1 = 8 then
            if s.ended then .done data
            else match (text ++ [0])[s.n + 1]? with
              | none => .undefined
              | some c => encodeLoop bound primes text turns (i + 1)
                  ⟨data, znak.set 1 c, 0, s.n + 1, c = 0⟩
          else encodeLoop bound primes text turns (i + 1) ⟨data, znak, s.j + 1, s.n, s.ended⟩

/-- `EncodeMessage`: the bytes of the image afterwards. `text` is the argument without its final
zero. -/
def encodeMessage (ppm : Ppm) (text : List (BitVec 8)) : Outcome :=
  (eratosthenes (bitArray maxLimit)) |> afterSieve fun primes =>
    encodeLoop (3 * ppm.xsize * ppm.ysize % 2 ^ 32) primes text (maxLimit - 2) 2
      ⟨ppm.data, [8, (text ++ [0]).getD 0 0], 0, 0, false⟩

/-- The loop of `PrintMessage` from `i` on, for `turns` turns. -/
def printLoop (data : List (BitVec 8)) (primes : List (BitVec 64)) :
    Nat → Nat → Nat → List (BitVec 8) → List (BitVec 8) → Outcome
  | 0, _, _, _, out => .fatal out "Sprava nebola ukoncena nulovym znakom"
  | turns + 1, i, j, znak, out =>
    match getBitChecked primes i with
    | .error msg => .fatal out msg
    | .ok true => printLoop data primes turns (i + 1) j znak out
    | .ok false =>
      match data[i]? with
      | none => .undefined
      | some byte =>
        let znak := setBit znak j (byte &&& 1 ≠ 0)
        if j < 7 then printLoop data primes turns (i + 1) (j + 1) znak out
        else if znak.getD 1 0 = 0 then .done out
        else if j = 7 then
          if isprint (znak.getD 1 0) then
            printLoop data primes turns (i + 1) 0 znak (out ++ [znak.getD 1 0])
          else .fatal out "Nacitany netlacitelny znak"
        else printLoop data primes turns (i + 1) j znak out

/-- `PrintMessage`: the text on the output. -/
def printMessage (data : List (BitVec 8)) : Outcome :=
  (eratosthenes (bitArray maxLimit)) |> afterSieve fun primes =>
    printLoop data primes (maxLimit - 2) 2 0 [8, 0] []

/-! ### The encoder -/

/-- The table that both programs begin with. -/
structure Primes (primes : List (BitVec 64)) : Prop where
  size : size primes = maxLimit
  bit : ∀ k < maxLimit, getBit primes k = !decide (Nat.Prime k)

theorem Primes.getBitChecked (h : Primes primes) (hk : k < maxLimit) :
    getBitChecked primes k = .ok (!decide (Nat.Prime k)) := by
  rw [BitArray.getBitChecked, if_neg (by rw [h.size]; omega), h.bit k hk]

theorem exists_primes : ∃ primes, eratosthenes (bitArray maxLimit) = .ok primes ∧ Primes primes := by
  obtain ⟨primes, hp, hsize, hbits⟩ := eratosthenes_spec (N := maxLimit)
    (by rw [maxLimit_eq]; decide) (by rw [maxLimit_eq]; decide)
  exact ⟨primes, hp, hsize, hbits⟩

/-- The final zero is the only one. -/
theorem getD_eq_zero_iff {text : List (BitVec 8)} (h : 0 ∉ text) (hn : n ≤ text.length) :
    (text ++ [0]).getD n 0 = 0 ↔ n = text.length := by
  rw [List.getD_eq_getElem?_getD]
  rcases Nat.lt_or_eq_of_le hn with hlt | rfl
  · rw [List.getElem?_append_left hlt, List.getElem?_eq_getElem hlt, Option.getD_some]
    exact ⟨fun h0 => absurd (h0 ▸ List.getElem_mem hlt) h, fun heq => by omega⟩
  · simp

/-- The loop of the encoder ends with the image it began with, if there are primes enough for the
bits that are left. -/
theorem encodeLoop_eq (h : Primes primes) (hbound : bound = s.data.length)
    (htext : 0 ∉ text) (hi : i + turns = maxLimit) (hj : s.j < 8) (hn : s.n ≤ text.length)
    (hended : s.ended = decide (s.n = text.length))
    (hcount : Nat.count Nat.Prime i + (8 * (text.length + 1) - (8 * s.n + s.j)) ≤
      Nat.count Nat.Prime (min bound maxLimit)) :
    encodeLoop bound primes text turns i s = .done s.data := by
  induction turns generalizing i s with
  | zero =>
    have := Nat.count_monotone Nat.Prime (show min bound maxLimit ≤ i by omega)
    omega
  | succ turns ih =>
    have hlt : i < min bound maxLimit := by
      refine Nat.not_le.mp fun hle => ?_
      have := Nat.count_monotone Nat.Prime hle
      omega
    rw [encodeLoop, if_neg (by omega), h.getBitChecked (by omega)]
    by_cases hp : Nat.Prime i
    · have hsucc : Nat.count Nat.Prime (i + 1) = Nat.count Nat.Prime i + 1 := by
        rw [Nat.count_succ, if_pos hp]
      have hget : s.data[i]? = some s.data[i] := List.getElem?_eq_getElem (by omega)
      have hset : s.data.set i s.data[i] = s.data := List.set_getElem_self ..
      simp only [hp, decide_true, Bool.not_true, hget, setBit_getBit, List.getD_cons_succ,
        List.getD_cons_zero, hset]
      split
      next hj8 =>
        split
        · rfl
        next hend =>
          have hne : s.n < text.length := by
            rw [hended, decide_eq_true_eq] at hend
            omega
          have hnext : (text ++ [0])[s.n + 1]? = some ((text ++ [0]).getD (s.n + 1) 0) := by
            rw [List.getD_eq_getElem?_getD, List.getElem?_eq_getElem (by simp; omega),
              Option.getD_some]
          rw [hnext]
          refine ih hbound (by omega) (Nat.zero_lt_succ _) hne ?_ (by dsimp only; omega)
          exact decide_eq_decide.mpr (getD_eq_zero_iff htext hne)
      next hj8 =>
        exact ih hbound (by omega) (by dsimp only; omega) hn hended (by dsimp only; omega)
    · have hsucc : Nat.count Nat.Prime (i + 1) = Nat.count Nat.Prime i := by
        rw [Nat.count_succ, if_neg hp, Nat.add_zero]
      simp only [hp, decide_false, Bool.not_false]
      exact ih hbound (by omega) hj hn hended (by omega)

/-- The number of primes that the bits of a text and its final zero take. -/
def Large (ppm : Ppm) (text : List (BitVec 8)) : Prop :=
  8 * (text.length + 1) ≤ Nat.primeCounting' (min (3 * ppm.xsize * ppm.ysize % 2 ^ 32) maxLimit)

/-- The encoder leaves every image as it is. -/
theorem encodeMessage_eq (hne : text ≠ []) (htext : 0 ∉ text) (hlarge : Large ppm text) :
    encodeMessage ppm text = .done ppm.data := by
  obtain ⟨primes, hsieve, h⟩ := exists_primes
  have hpos : 0 < text.length := List.length_pos_iff.mpr hne
  have htwo : Nat.count Nat.Prime 2 = 0 := by
    simp [Nat.count_succ, Nat.not_prime_zero, Nat.not_prime_one]
  have hmax := maxLimit_eq
  rw [encodeMessage, hsieve, afterSieve]
  refine encodeLoop_eq h ppm.length_eq.symm htext (by omega) (Nat.zero_lt_succ _) (Nat.zero_le _)
    ?_ ?_
  · exact (decide_eq_false (Nat.ne_of_lt hpos)).symm
  · rw [htwo]
    simpa [Large, Nat.primeCounting'] using hlarge

/-! ### The decoder -/

/-- The least significant bit of a byte of the image. -/
def lsb (data : List (BitVec 8)) (p : Nat) : Bool := (data.getD p 0).getLsbD 0

/-- Write a bit into a character. -/
def putBit (c : BitVec 8) (j : Nat) (b : Bool) : BitVec 8 :=
  if b then c ||| BitVec.twoPow 8 j else c &&& ~~~BitVec.twoPow 8 j

/-- Write bits into a character, from bit `j` on. -/
def putBits (c : BitVec 8) (j : Nat) : List Bool → BitVec 8
  | [] => c
  | b :: bs => putBits (putBit c j b) (j + 1) bs

theorem setBit_char (hj : j < 8) : setBit [x, c] j b = [x, putBit c j b] := by
  rw [setBit, Nat.div_eq_of_lt hj, Nat.mod_eq_of_lt hj]
  rfl

theorem getLsbD_putBit (hj : j < 8) :
    (putBit c j b).getLsbD k = if k = j then b else c.getLsbD k := by
  unfold putBit
  by_cases hk : k = j
  · subst hk
    cases b <;> simp [hj]
  · by_cases hk8 : k < 8
    · cases b <;> simp [hk, hk8]
    · have hnone : ∀ x : BitVec 8, x.getLsbD k = false :=
        fun x => BitVec.getLsbD_of_ge x k (Nat.le_of_not_lt hk8)
      rw [hnone, hnone, if_neg hk]

theorem getLsbD_putBits (hj : j + bs.length ≤ 8) : (putBits c j bs).getLsbD k =
    if j ≤ k ∧ k < j + bs.length then bs.getD (k - j) false else c.getLsbD k := by
  induction bs generalizing c j with
  | nil => simp [putBits]; omega
  | cons b bs ih =>
    rw [List.length_cons] at hj
    rw [putBits, ih (by omega), getLsbD_putBit (by omega), List.length_cons]
    by_cases hk : k = j
    · subst hk
      simp
    · by_cases hlt : j + 1 ≤ k ∧ k < j + 1 + bs.length
      · rw [if_pos hlt, if_pos (by omega), show k - j = k - (j + 1) + 1 by omega,
          List.getD_cons_succ]
      · rw [if_neg hlt, if_neg hk, if_neg (by omega)]

theorem putBits_concat :
    putBits c j (bs ++ [b]) = putBit (putBits c j bs) (j + bs.length) b := by
  induction bs generalizing c j with
  | nil => rfl
  | cons b' bs ih =>
    rw [List.cons_append, putBits, ih, putBits, List.length_cons, Nat.add_right_comm, Nat.add_assoc]

/-- What the decoder reads from the image bytes at the given indexes. -/
def readBits (data : List (BitVec 8)) :
    List Nat → Nat → List (BitVec 8) → List (BitVec 8) → Outcome
  | [], _, _, out => .fatal out "Sprava nebola ukoncena nulovym znakom"
  | p :: ps, j, znak, out =>
    match data[p]? with
    | none => .undefined
    | some byte =>
      let znak := setBit znak j (byte &&& 1 ≠ 0)
      if j < 7 then readBits data ps (j + 1) znak out
      else if znak.getD 1 0 = 0 then .done out
      else if j = 7 then
        if isprint (znak.getD 1 0) then
          readBits data ps 0 znak (out ++ [znak.getD 1 0])
        else .fatal out "Nacitany netlacitelny znak"
      else readBits data ps j znak out

/-- The loop of the decoder reads the bytes at prime indexes. -/
theorem printLoop_eq (h : Primes primes) (hi : i + turns = maxLimit) :
    printLoop data primes turns i j znak out =
      readBits data ((List.range' i turns).filter Nat.Prime) j znak out := by
  induction turns generalizing i j znak out with
  | zero => rfl
  | succ turns ih =>
    rw [printLoop, h.getBitChecked (by omega), List.range'_succ, List.filter_cons]
    by_cases hp : Nat.Prime i
    · simp only [hp, decide_true, Bool.not_true, if_true, readBits]
      split
      next => rfl
      next => simp only [ih (i := i + 1) (by omega)]
    · simp only [hp, decide_false, Bool.not_false, Bool.false_eq_true, if_false]
      exact ih (by omega)

theorem and_one_ne_zero (b : BitVec 8) : decide (b &&& 1 ≠ 0) = b.getLsbD 0 := by
  rw [show (1 : BitVec 8) = 1#8 from rfl, BitVec.and_one_eq_setWidth_ofBool_getLsbD]
  cases b.getLsbD 0 <;> decide

/-- Bits of one character, but for the last. -/
theorem readBits_append (hj : j + qs.length ≤ 7) (hqs : ∀ q ∈ qs, q < data.length) :
    readBits data (qs ++ ps) j [8, c] out =
      readBits data ps (j + qs.length) [8, putBits c j (qs.map (lsb data))] out := by
  induction qs generalizing j c with
  | nil => rfl
  | cons q qs ih =>
    have hq := hqs q List.mem_cons_self
    rw [List.length_cons] at hj
    have hget : data[q]? = some data[q] := List.getElem?_eq_getElem hq
    have hlsb : lsb data q = data[q].getLsbD 0 := by
      rw [lsb, List.getD_eq_getElem?_getD, hget, Option.getD_some]
    rw [List.cons_append, readBits, hget]
    simp only [and_one_ne_zero, if_pos (show j < 7 by omega), setBit_char (show j < 8 by omega)]
    rw [ih (by omega) fun q' hq' => hqs q' (List.mem_cons_of_mem _ hq'), List.length_cons,
      List.map_cons, putBits, hlsb, Nat.add_right_comm, Nat.add_assoc]

/-- Eight indexes make a character, which is printed unless it ends the text. -/
theorem readBits_char (hqs : qs.length = 8) (hdata : ∀ q ∈ qs, q < data.length)
    (ps : List Nat) (c : BitVec 8) (out : List (BitVec 8)) :
    ∃ c', (∀ k < 8, c'.getLsbD k = lsb data (qs.getD k 0)) ∧
      readBits data (qs ++ ps) 0 [8, c] out =
        if c' = 0 then .done out
        else if isprint c' then readBits data ps 0 [8, c'] (out ++ [c'])
        else .fatal out "Nacitany netlacitelny znak" := by
  have hbits : (qs.map (lsb data)).length = 8 := by rw [List.length_map, hqs]
  refine ⟨putBits c 0 (qs.map (lsb data)), fun k hk => ?_, ?_⟩
  · rw [getLsbD_putBits (by omega), if_pos (by omega), Nat.sub_zero]
    simp [List.getD_eq_getElem?_getD, List.getElem?_eq_getElem (show k < qs.length by omega)]
  · obtain ⟨qs, q, rfl⟩ : ∃ qs' q, qs = qs' ++ [q] :=
      ⟨_, _, (List.dropLast_append_getLast (List.ne_nil_of_length_pos (by omega))).symm⟩
    rw [List.length_append, List.length_singleton] at hqs
    have hq : q < data.length := hdata q (by simp)
    have hget : data[q]? = some data[q] := List.getElem?_eq_getElem hq
    have hlsb : lsb data q = data[q].getLsbD 0 := by
      rw [lsb, List.getD_eq_getElem?_getD, hget, Option.getD_some]
    rw [List.append_assoc, readBits_append (by omega) fun q' hq' => hdata q' (by simp [hq']),
      List.singleton_append, readBits, hget, List.map_append, List.map_cons, List.map_nil,
      putBits_concat, List.length_map, hlsb, show 0 + qs.length = 7 by omega]
    simp only [and_one_ne_zero, setBit_char (show 7 < 8 by omega), Nat.lt_irrefl, if_false, if_true,
      List.getD_cons_succ, List.getD_cons_zero]

/-- What has been printed stays printed. -/
theorem readBits_isPrefix (h : readBits data ps j znak out = .done bytes) : out <+: bytes := by
  induction ps generalizing j znak out with
  | nil => cases h
  | cons p ps ih =>
    simp only [readBits] at h
    split at h
    · cases h
    next byte _ =>
      generalize setBit znak j _ = z at h
      split at h
      · exact ih h
      · split at h
        · exact (Outcome.done.inj h) ▸ List.prefix_rfl
        · split at h
          · split at h
            · exact (List.prefix_append out _).trans (ih h)
            · cases h
          · exact ih h

/-- The image carries the text, and a zero after it, in the least significant bits of the bytes at
the given indexes. -/
def CarriesAt (data : List (BitVec 8)) (text : List (BitVec 8)) (index : Nat → Nat) : Prop :=
  ∀ k < 8 * (text.length + 1), lsb data (index k) = ((text ++ [0]).getD (k / 8) 0).getLsbD (k % 8)

/-- A text is carried character by character. -/
theorem carriesAt_cons : CarriesAt data (a :: text) index ↔
    (∀ k < 8, lsb data (index k) = a.getLsbD k) ∧
      CarriesAt data text fun k => index (k + 8) := by
  constructor
  · intro h
    refine ⟨fun k hk => ?_, fun k hk => ?_⟩
    · have hbit := h k (by rw [List.length_cons]; omega)
      rwa [Nat.div_eq_of_lt hk, Nat.mod_eq_of_lt hk] at hbit
    · have hbit := h (k + 8) (by rw [List.length_cons]; omega)
      rwa [Nat.add_div_right k (by decide), Nat.add_mod_right, List.cons_append,
        List.getD_cons_succ] at hbit
  · rintro ⟨hchar, hrest⟩ k hk
    rcases Nat.lt_or_ge k 8 with hlt | hge
    · rw [Nat.div_eq_of_lt hlt, Nat.mod_eq_of_lt hlt]
      exact hchar k hlt
    · obtain ⟨k, rfl⟩ := Nat.exists_eq_add_of_le' hge
      rw [Nat.add_div_right k (by decide), Nat.add_mod_right, List.cons_append,
        List.getD_cons_succ]
      exact hrest k (by rw [List.length_cons] at hk; omega)

/-- A character is determined by its bits. -/
theorem char_eq_iff {c a : BitVec 8} : c = a ↔ ∀ k < 8, c.getLsbD k = a.getLsbD k :=
  ⟨fun h _ _ => h ▸ rfl, fun h => BitVec.eq_of_getLsbD_eq h⟩

/-- The first character that the decoder reads. -/
theorem readBits_first (hps : 8 ≤ ps.length) (hdata : ∀ q ∈ ps.take 8, q < data.length)
    (c : BitVec 8) (out : List (BitVec 8)) :
    ∃ c', (∀ a, c' = a ↔ ∀ k < 8, lsb data (ps.getD k 0) = a.getLsbD k) ∧
      readBits data ps 0 [8, c] out =
        if c' = 0 then .done out
        else if isprint c' then readBits data (ps.drop 8) 0 [8, c'] (out ++ [c'])
        else .fatal out "Nacitany netlacitelny znak" := by
  have hlen : (ps.take 8).length = 8 := by
    rw [List.length_take]
    omega
  obtain ⟨c', hbits, hread⟩ := readBits_char hlen hdata (ps.drop 8) c out
  rw [List.take_append_drop] at hread
  refine ⟨c', fun a => ?_, hread⟩
  rw [char_eq_iff]
  refine forall₂_congr fun k hk => ?_
  rw [hbits k hk, List.getD_eq_getElem?_getD, List.getD_eq_getElem?_getD, List.getElem?_take,
    if_pos hk]

/-- The decoder prints a text and stops exactly when the image carries it. -/
theorem readBits_done_iff (hprint : ∀ a ∈ text, isprint a)
    (hps : 8 * (text.length + 1) ≤ ps.length)
    (hdata : ∀ q ∈ ps.take (8 * (text.length + 1)), q < data.length) :
    readBits data ps 0 [8, c] out = .done (out ++ text) ↔
      CarriesAt data text fun k => ps.getD k 0 := by
  induction text generalizing ps c out with
  | nil =>
    obtain ⟨c', hc', hread⟩ := readBits_first hps hdata c out
    have hzero : CarriesAt data [] (fun k => ps.getD k 0) ↔ c' = 0 := by
      rw [hc' 0]
      refine forall₂_congr fun k hk => ?_
      simp
    rw [hread, hzero, List.append_nil]
    constructor
    · intro h
      by_contra hne
      rw [if_neg hne] at h
      split at h
      · have := (readBits_isPrefix h).length_le
        simp at this
      · cases h
    · rintro rfl
      rfl
  | cons a text ih =>
    have hsub : ∀ q ∈ ps.take 8, q < data.length := fun q hq =>
      hdata q ((List.take_prefix_take_left (by rw [List.length_cons]; omega)).subset hq)
    have hfirst : 8 ≤ ps.length := by
      rw [List.length_cons] at hps
      omega
    obtain ⟨c', hc', hread⟩ := readBits_first hfirst hsub c out
    have hlen : 8 * (text.length + 1) + 8 ≤ ps.length := by
      rw [List.length_cons] at hps
      omega
    have hdata' : ∀ q ∈ (ps.drop 8).take (8 * (text.length + 1)), q < data.length := by
      intro q hq
      refine hdata q ?_
      rw [List.take_drop] at hq
      refine List.mem_of_mem_drop ?_ (i := 8)
      rwa [List.length_cons, show 8 * (text.length + 1 + 1) = 8 + 8 * (text.length + 1) by omega]
    have hcons : CarriesAt data (a :: text) (fun k => ps.getD k 0) ↔
        c' = a ∧ CarriesAt data text fun k => (ps.drop 8).getD k 0 := by
      rw [carriesAt_cons, hc' a]
      simp [List.getD_eq_getElem?_getD, List.getElem?_drop, Nat.add_comm]
    have hrest : readBits data (ps.drop 8) 0 [8, c'] (out ++ [c']) =
        .done (out ++ [c'] ++ text) ↔ CarriesAt data text fun k => (ps.drop 8).getD k 0 :=
      ih (fun b hb => hprint b (List.mem_cons_of_mem a hb)) (by rw [List.length_drop]; omega) hdata'
    rw [hread, hcons]
    constructor
    · intro h
      split at h
      · have := congrArg List.length (Outcome.done.inj h)
        simp at this
      · split at h
        · have hprefix := (List.prefix_append_right_inj out).mp (readBits_isPrefix h)
          obtain rfl : c' = a := (List.cons_prefix_cons.mp hprefix).1
          exact ⟨rfl, hrest.mp (by rwa [List.append_assoc, List.singleton_append])⟩
        · cases h
    · rintro ⟨rfl, hcarries⟩
      have hc := hprint c' List.mem_cons_self
      have hne : c' ≠ 0 := by
        rintro rfl
        exact absurd hc (by decide)
      rw [if_neg hne, if_pos hc, hrest.mpr hcarries, List.append_assoc, List.singleton_append]

/-! ### The round trip -/

theorem filter_range_eq (p : Nat → Prop) [DecidablePred p] (n : Nat) :
    (List.range n).filter p = (List.range (Nat.count p n)).map (Nat.nth p) := by
  induction n with
  | zero => simp
  | succ n ih =>
    rw [List.range_succ, List.filter_append, ih, Nat.count_succ]
    by_cases hp : p n
    · rw [if_pos hp, List.range_succ, List.map_append]
      simp [hp, Nat.nth_count]
    · simp [hp]

/-- The primes that the loops pass. -/
theorem primes_eq : (List.range' 2 (maxLimit - 2)).filter Nat.Prime =
    (List.range (Nat.primeCounting' maxLimit)).map (Nat.nth Nat.Prime) := by
  have hsplit : List.range maxLimit = [0, 1] ++ List.range' 2 (maxLimit - 2) := by
    rw [List.range_eq_range', show maxLimit = 2 + (maxLimit - 2) by rw [maxLimit_eq],
      ← List.range'_append_1, Nat.add_sub_cancel_left]
    rfl
  rw [Nat.primeCounting', ← filter_range_eq, hsplit, List.filter_append]
  simp [Nat.not_prime_zero, Nat.not_prime_one]

/-- The image carries the text in its bytes at prime indexes. -/
def Carries (ppm : Ppm) (text : List (BitVec 8)) : Prop :=
  CarriesAt ppm.data text (Nat.nth Nat.Prime)

/-- The decoder prints a text exactly when the image carries it. -/
theorem printMessage_iff (hprint : ∀ a ∈ text, isprint a) (hlarge : Large ppm text) :
    printMessage ppm.data = .done text ↔ Carries ppm text := by
  obtain ⟨primes, hsieve, h⟩ := exists_primes
  have hmax := maxLimit_eq
  have hcount : ∀ k < 8 * (text.length + 1), k < Nat.count Nat.Prime (min ppm.data.length maxLimit) :=
    fun k hk => by
      rw [ppm.length_eq]
      exact Nat.lt_of_lt_of_le hk hlarge
  have hle : 8 * (text.length + 1) ≤ Nat.primeCounting' maxLimit :=
    Nat.le_trans hlarge (Nat.count_monotone Nat.Prime (Nat.min_le_right ..))
  have hget : ∀ k < 8 * (text.length + 1), ((List.range (Nat.primeCounting' maxLimit)).map
      (Nat.nth Nat.Prime)).getD k 0 = Nat.nth Nat.Prime k := fun k hk => by
    rw [List.getD_eq_getElem?_getD, List.getElem?_map, List.getElem?_range (by omega)]
    rfl
  rw [printMessage, hsieve, afterSieve, printLoop_eq h (by omega), primes_eq]
  change _ = Outcome.done ([] ++ text) ↔ _
  refine (readBits_done_iff hprint (by simpa using hle) fun q hq => ?_).trans ?_
  · rw [← List.map_take, List.take_range, Nat.min_eq_left hle, List.mem_map] at hq
    obtain ⟨k, hk, rfl⟩ := hq
    exact Nat.lt_of_lt_of_le (Nat.nth_lt_of_lt_count (hcount k (List.mem_range.mp hk)))
      (Nat.min_le_left ..)
  · refine forall₂_congr fun k hk => ?_
    beta_reduce
    rw [hget k hk]

/-- What a hidden text changes in an image: the text can be read, and nothing but the least
significant bits of bytes at prime indexes is different. -/
structure RoundTrip (ppm : Ppm) (text : List (BitVec 8)) (data : List (BitVec 8)) : Prop where
  encoded : encodeMessage ppm text = .done data
  printed : printMessage data = .done text
  length : data.length = ppm.data.length
  others : ∀ i, ¬ Nat.Prime i → data[i]? = ppm.data[i]?
  upper : ∀ i, (data.getD i 0) >>> 1 = (ppm.data.getD i 0) >>> 1

/-- The encoder does not put a text into an image that does not carry it. -/
theorem RoundTrip.carries (hne : text ≠ []) (hprint : ∀ a ∈ text, isprint a)
    (hlarge : Large ppm text) (h : RoundTrip ppm text data) : Carries ppm text := by
  have htext : 0 ∉ text := fun h0 => absurd (hprint 0 h0) (by decide)
  have hdata : ppm.data = data :=
    Outcome.done.inj ((encodeMessage_eq hne htext hlarge).symm.trans h.encoded)
  rw [← printMessage_iff hprint hlarge, hdata]
  exact h.printed

/-- A text survives the round trip exactly when the image carries it already. -/
theorem revealed_iff (hne : text ≠ []) (hprint : ∀ a ∈ text, isprint a)
    (hlarge : Large ppm text) : (∃ data, RoundTrip ppm text data) ↔ Carries ppm text := by
  constructor
  · rintro ⟨data, h⟩
    exact h.carries hne hprint hlarge
  · intro h
    have htext : 0 ∉ text := fun h0 => absurd (hprint 0 h0) (by decide)
    exact ⟨ppm.data, encodeMessage_eq hne htext hlarge, (printMessage_iff hprint hlarge).mpr h, rfl,
      fun _ _ => rfl, fun _ => rfl⟩

/-- An image of nineteen pixels. -/
def strip (data : Fin 57 → BitVec 8) : Ppm := ⟨1, 19, List.ofFn data, by simp⟩

theorem primeCounting'_57 : Nat.primeCounting' 57 = 16 := by
  decide +kernel

theorem strip_large : Large (strip data) [0x41] := by
  rw [Large, strip, maxLimit_eq]
  exact Nat.le_of_eq primeCounting'_57.symm

/-- The sixteen primes of a strip. -/
theorem nth_prime_strip : ∀ k < 16, Nat.nth Nat.Prime k =
    [2, 3, 5, 7, 11, 13, 17, 19, 23, 29, 31, 37, 41, 43, 47, 53].getD k 0 := by
  have hlist := filter_range_eq Nat.Prime 57
  rw [← Nat.primeCounting', primeCounting'_57] at hlist
  have hprimes : (List.range 57).filter Nat.Prime =
      [2, 3, 5, 7, 11, 13, 17, 19, 23, 29, 31, 37, 41, 43, 47, 53] := by
    decide +kernel
  intro k hk
  rw [← hprimes, hlist, List.getD_eq_getElem?_getD, List.getElem?_map, List.getElem?_range hk]
  rfl

/-- Where an image carries the text already, the decoder prints it. -/
theorem revealed_carried :
    ∃ data, RoundTrip (strip fun i => if i = 2 ∨ i = 17 then 1 else 0) [0x41] data := by
  refine (revealed_iff (by decide) (by decide) strip_large).mpr fun k hk => ?_
  rw [nth_prime_strip k hk]
  revert k
  decide

/-- A black image still carries no text after the encoder. -/
theorem black_not_carries : ¬ ∀ (ppm : Ppm) (text : List (BitVec 8)), text ≠ [] →
    (∀ a ∈ text, isprint a) → Large ppm text → ∃ data, RoundTrip ppm text data := by
  intro h
  obtain ⟨data, hdata⟩ := h (strip fun _ => 0) [0x41] (by decide) (by decide) strip_large
  have hcarries := hdata.carries (by decide) (by decide) strip_large 0 (by decide)
  rw [nth_prime_strip 0 (by decide)] at hcarries
  exact absurd hcarries (by decide)

end Steganography
