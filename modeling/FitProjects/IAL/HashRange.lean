import FitProjects.IAL.HashTable
import Mathlib.Algebra.Ring.Int.Defs

/-! # The range of the hash codes

`hashCode` of `IAL/c016.c` adds signed characters and takes a remainder that has the sign of the
sum. For a key whose sum does not overflow an `int`, the index lies in `0 .. HTSIZE - 1` exactly if
the sum is not negative or `HTSIZE` divides it. The functions of the table use this index without
any test, so they stay within the array for exactly the same keys. -/

namespace HashTable

variable {δ : Type} {HTSIZE MAX_HTSIZE : Nat} {t : Table δ} {key : Key}

/-- The sum that `hashCode` forms, without a bound. -/
def byteSum (key : Key) : Int := 1 + (key.bytes.map Int8.toInt).sum

/-- The loop of `hashCode` does not overflow while the bounds of the bytes add up to less than
`2 ^ 31`. -/
theorem foldl_eq_add_sum (bytes : List Int8) (retval : Int)
    (h : retval.natAbs + 128 * bytes.length < 2 ^ 31) :
    bytes.foldl (fun (retval : Int) b => (retval + b.toInt).bmod (2 ^ 32)) retval =
      retval + (bytes.map Int8.toInt).sum := by
  induction bytes generalizing retval with
  | nil => simp
  | cons b bytes ih =>
    have hlo : -128 ≤ b.toInt := b.le_toInt
    have hhi : b.toInt ≤ 127 := b.toInt_le
    rw [List.length_cons] at h
    have hbmod : (retval + b.toInt).bmod (2 ^ 32) = retval + b.toInt :=
      Int.bmod_eq_of_le (by omega) (by omega)
    rw [List.foldl_cons, hbmod, ih _ (by omega), List.map_cons, List.sum_cons, Int.add_assoc]

theorem hashCode_eq (hlen : key.bytes.length < 2 ^ 23) :
    hashCode HTSIZE key = (byteSum key).tmod HTSIZE := by
  have hkeylen : (key.bytes.length : Int).bmod (2 ^ 32) = key.bytes.length :=
    Int.bmod_eq_of_le (by omega) (by omega)
  have hfold := foldl_eq_add_sum key.bytes 1 (by omega)
  rw [hashCode, hkeylen, Int.toNat_natCast, List.take_length, hfold, byteSum]

/-- A truncated remainder is negative unless the dividend is not, or nothing remains. -/
theorem tmod_nonneg_iff {a : Int} {n : Nat} (hn : 0 < n) :
    0 ≤ a.tmod n ↔ 0 ≤ a ∨ (n : Int) ∣ a := by
  constructor
  · intro h
    by_cases ha : 0 ≤ a
    · exact .inl ha
    · have hneg : a.tmod n = -((-a) % n) := by
        rw [← Int.tmod_eq_emod_of_nonneg (by omega), Int.neg_tmod, Int.neg_neg]
      have hrem : 0 ≤ (-a) % (n : Int) := Int.emod_nonneg _ (by omega)
      exact .inr (Int.dvd_neg.mp (Int.dvd_of_emod_eq_zero (by omega)))
  · rintro (ha | ha)
    · exact Int.tmod_nonneg _ ha
    · exact Int.le_of_eq (Int.tmod_eq_zero_of_dvd ha).symm

theorem inRange_iff (hlen : key.bytes.length < 2 ^ 23) (hpos : 1 ≤ HTSIZE) :
    InRange HTSIZE key ↔ 0 ≤ byteSum key ∨ (HTSIZE : Int) ∣ byteSum key := by
  have hlt : (byteSum key).tmod HTSIZE < HTSIZE := Int.tmod_lt_of_pos _ (by omega)
  rw [InRange, hashCode_eq hlen, and_iff_left hlt, tmod_nonneg_iff hpos]

/-- The index of the key lies below `HTSIZE`, and none of the functions that get the key uses an
index outside the array. -/
structure StaysWithin (HTSIZE : Nat) (t : Table δ) (key : Key) : Prop where
  inRange : InRange HTSIZE key
  search : (search HTSIZE t key).isSome
  insert : ∀ data newItem newKey, (insert HTSIZE t key data newItem newKey).isSome
  read : (read HTSIZE t key).isSome
  delete : (delete HTSIZE t key).isSome

/-- A key in range has its chain in every array of at least `HTSIZE` pointers. -/
theorem InRange.staysWithin (h : InRange HTSIZE key) (hle : HTSIZE ≤ t.length) :
    StaysWithin HTSIZE t key := by
  have hlt : (hashCode HTSIZE key).toNat < t.length := by
    have := h.1
    have := h.2
    omega
  have hchain : chain t (hashCode HTSIZE key) = some t[(hashCode HTSIZE key).toNat] := by
    rw [chain, if_pos h.1, List.getElem?_eq_getElem hlt]
  have hsearch : HashTable.search HTSIZE t key =
      some (searchChain key t[(hashCode HTSIZE key).toNat]) := by simp [HashTable.search, hchain]
  refine ⟨h, by simp [hsearch], fun data newItem newKey => ?_, by simp [HashTable.read, hsearch],
    ?_⟩
  · simp only [HashTable.insert, hsearch, hchain, Option.bind_eq_bind, Option.bind_some]
    split_ifs <;> rfl
  · simp only [HashTable.delete, hchain, Option.bind_eq_bind, Option.bind_some]
    cases t[(hashCode HTSIZE key).toNat] with
    | nil => rfl
    | cons item next =>
      by_cases hk : item.key = key <;> simp [hk]

/-- With any other key the first access of every function misses the array. -/
theorem leaves_of_not_inRange (h : ¬ InRange HTSIZE key) (hcode : hashCode HTSIZE key < HTSIZE) :
    search HTSIZE t key = none ∧ (∀ data a b, insert HTSIZE t key data a b = none) ∧
      read HTSIZE t key = none ∧ delete HTSIZE t key = none := by
  have hchain : chain t (hashCode HTSIZE key) = none := by
    rw [chain, if_neg fun h0 => h ⟨h0, hcode⟩]
  have hsearch : search HTSIZE t key = none := by simp [search, hchain]
  exact ⟨hsearch, fun _ _ _ => by simp [insert, hsearch], by simp [read, hsearch],
    by simp [delete, hchain]⟩

/-- The table stays within its bounds exactly for the keys whose sum is not negative or a multiple
of `HTSIZE`; with the other keys all functions leave it. -/
theorem staysWithin_iff (hlen : key.bytes.length < 2 ^ 23) (hpos : 1 ≤ HTSIZE)
    (hle : HTSIZE ≤ MAX_HTSIZE) (ht : t.length = MAX_HTSIZE) :
    (StaysWithin HTSIZE t key ↔ 0 ≤ byteSum key ∨ (HTSIZE : Int) ∣ byteSum key) ∧
      (¬ (0 ≤ byteSum key ∨ (HTSIZE : Int) ∣ byteSum key) →
        search HTSIZE t key = none ∧ (∀ data a b, insert HTSIZE t key data a b = none) ∧
          read HTSIZE t key = none ∧ delete HTSIZE t key = none) := by
  rw [← inRange_iff hlen hpos]
  refine ⟨⟨StaysWithin.inRange, fun h => h.staysWithin (ht ▸ hle)⟩, fun h => ?_⟩
  refine leaves_of_not_inRange h ?_
  rw [hashCode_eq hlen]
  exact Int.tmod_lt_of_pos _ (by omega)

/-- The two bytes of a letter with an acute accent. -/
def keyAccent : Key := ⟨[-61, -87], by decide⟩

theorem staysWithin_iff_keyAccent :
    (StaysWithin 101 (init 101 : Table Int) keyAccent ↔
        0 ≤ byteSum keyAccent ∨ ((101 : Nat) : Int) ∣ byteSum keyAccent) ∧
      (¬ (0 ≤ byteSum keyAccent ∨ ((101 : Nat) : Int) ∣ byteSum keyAccent) →
        search 101 (init 101 : Table Int) keyAccent = none ∧
          (∀ data a b, insert 101 (init 101 : Table Int) keyAccent data a b = none) ∧
          read 101 (init 101 : Table Int) keyAccent = none ∧
          delete 101 (init 101 : Table Int) keyAccent = none) :=
  staysWithin_iff (by decide) (by decide) (Nat.le_refl 101) List.length_replicate

/-- The sum of this key is `-147`, and `htSearch` reads the pointer at index `-46`. -/
theorem not_staysWithin_keyAccent :
    ¬ ∀ (key : Key) (HTSIZE MAX_HTSIZE : Nat) (t : Table Int), key.bytes.length < 2 ^ 23 →
      1 ≤ HTSIZE → HTSIZE ≤ MAX_HTSIZE → t.length = MAX_HTSIZE → StaysWithin HTSIZE t key := by
  intro h
  have hin := h keyAccent 101 101 (init 101) (by decide) (by decide) (by decide)
    List.length_replicate
  exact absurd hin.inRange (by decide)

end HashTable
