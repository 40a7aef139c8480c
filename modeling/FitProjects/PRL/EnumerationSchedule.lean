import FitProjects.Lib.Rank
import FitProjects.PRL.EnumerationSort
import Mathlib.Data.Prod.Lex

/-! # The schedule of the enumeration sort

What each process does on a given input, and when. Slave `id` receives the `k`th number at time
`id + k`. All slaves send their numbers to their places at time `2 n + 1`, and then the sorted numbers
are shifted out. -/

namespace EnumerationSort

open MessagePassing History Tags

section
variable (input : List UInt8)

/-- The byte for slave `id`. -/
def byte (id : Nat) : UInt8 := input.getD (id - 1) 0

/-- The number of slave `id`. -/
def number (id : Nat) : UInt16 := (byte input id).toUInt16

def slaves : List Nat := List.range' 1 input.length

/-- Numbers ascend, and equal ones are in the order of their slaves. -/
def key (id : Nat) : Nat ×ₗ Nat := toLex ((byte input id).toNat, id)

/-- The number that slave `id` computes in `c`. -/
def place (id : Nat) : Nat := rank (slaves input) (key input) id + 1

/-- The slave whose number gets to place `k`. -/
def holder (k : Nat) : Nat := unrank (slaves input) (key input) (k - 1)

def sorted (k : Nat) : UInt16 := number input (holder input k)

/-- The process to which slave `id` shifts the sorted numbers. -/
def next (id : Nat) : Nat := if id ≠ input.length then id + 1 else 0

def stream : Channel Tags → List (Delivery UInt16)
  | ⟨src, dst, tag_x⟩ =>
    if src = 0 ∧ 1 ≤ dst ∧ dst ≤ input.length then
      [⟨dst, dst + 1, number input dst, Nat.lt_succ_self _⟩]
    else []
  | ⟨src, dst, tag_y⟩ =>
    if dst = src + 1 ∧ dst ≤ input.length then
      (List.range input.length).map fun k =>
        ⟨src + 1 + k, src + 2 + k, number input (k + 1), by omega⟩
    else []
  | ⟨src, dst, tag_z⟩ =>
    if 1 ≤ src ∧ src ≤ input.length ∧ dst = place input src then
      [⟨2 * input.length + 1, 2 * input.length + 2, number input src, Nat.lt_succ_self _⟩]
    else []
  | ⟨src, dst, tag_o⟩ =>
    if 1 ≤ src ∧ src ≤ input.length ∧ dst = next input src then
      (List.range src).map fun k =>
        ⟨2 * input.length + 3 + k, 2 * input.length + 4 + k, sorted input (src - k), by omega⟩
    else []

/-- The master sends the next number. -/
def inEvents (k : Nat) : History Tags UInt16 String :=
  (if k + 1 ≠ 1 then [(k + 1, .print " ")] else []) ++
    [(k + 1, .print (toString (number input (k + 1)))),
      (k + 1, .send ⟨0, k + 1, tag_x⟩ (number input (k + 1))),
      (k + 1, .send ⟨0, 1, tag_y⟩ (number input (k + 1)))]

/-- It receives the sorted numbers, the last one first. -/
def collectEvents (k : Nat) : History Tags UInt16 String :=
  [(2 * input.length + 4 + k, .recv ⟨input.length, 0, tag_o⟩ (sorted input (input.length - k)))]

def printEvents (k : Nat) : History Tags UInt16 String :=
  [(3 * input.length + 4, .print (toString (sorted input (k + 1)))),
    (3 * input.length + 4, .print "\n")]

def masterEvents : History Tags UInt16 String :=
  (List.range input.length).flatMap (inEvents input) ++
  (input.length + 1, .print "\n") ::
  ((List.range input.length).flatMap (collectEvents input) ++
  ((List.range input.length).flatMap (printEvents input) ++ []))

/-- Slave `id` receives the next number and passes it on. -/
def shiftEvents (id k : Nat) : History Tags UInt16 String :=
  (id + 1 + k, .recv ⟨id - 1, id, tag_y⟩ (number input (k + 1))) ::
    ((if id ≠ input.length then
      [(id + 1 + k, .send ⟨id, id + 1, tag_y⟩ (number input (k + 1)))] else []) ++ [])

/-- It passes on a sorted number and receives the one before it. -/
def outEvents (id k : Nat) : History Tags UInt16 String :=
  [(2 * input.length + 3 + k, .send ⟨id, next input id, tag_o⟩ (sorted input (id - k))),
    (2 * input.length + 4 + k, .recv ⟨id - 1, id, tag_o⟩ (sorted input (id - (k + 1))))]

def slaveEvents (id : Nat) : History Tags UInt16 String :=
  (id + 1, .recv ⟨0, id, tag_x⟩ (number input id)) ::
  ((List.range input.length).flatMap (shiftEvents input id) ++
  (2 * input.length + 1, .send ⟨id, place input id, tag_z⟩ (number input id)) ::
  (2 * input.length + 2, .recv ⟨holder input id, id, tag_z⟩ (sorted input id)) ::
  ((List.range (id - 1)).flatMap (outEvents input id) ++
  [(2 * input.length + 3 + (id - 1), .send ⟨id, next input id, tag_o⟩ (sorted input 1))]))

def events (id : Nat) : History Tags UInt16 String :=
  if id = 0 then masterEvents input
  else if id ≤ input.length then slaveEvents input id
  else []

def vars (id : Nat) : Vars :=
  if id = 0 then {}
  else { x := number input id, z := sorted input 1, c := UInt16.ofNat (place input id) }

end

variable {input : List UInt8} {id k : Nat}

/-! ## Places -/

theorem mem_slaves : id ∈ slaves input ↔ 1 ≤ id ∧ id ≤ input.length := by
  rw [slaves, List.mem_range'_1]
  omega

theorem length_slaves : (slaves input).length = input.length := List.length_range'

theorem nodup_slaves : (slaves input).Nodup := List.nodup_range'

theorem key_inj (input : List UInt8) (i : Nat) (_ : i ∈ slaves input) (j : Nat)
    (_ : j ∈ slaves input) (h : key input i = key input j) : i = j := by
  simp only [key, toLex_inj, Prod.mk.injEq] at h
  exact h.2

theorem key_lt_key {i j : Nat} : key input i < key input j ↔
    (byte input i).toNat < (byte input j).toNat ∨
      (byte input i).toNat = (byte input j).toNat ∧ i < j := by
  simp [key, Prod.Lex.toLex_lt_toLex]

theorem place_le (h : id ∈ slaves input) : place input id ≤ input.length := by
  have hlt : rank (slaves input) (key input) id < (slaves input).length := rank_lt_length h
  rwa [length_slaves] at hlt

theorem holder_place (h : id ∈ slaves input) : holder input (place input id) = id := by
  rw [holder, place, Nat.add_sub_cancel, unrank_rank (key_inj input) h]

theorem lt_length_slaves (h : k ∈ slaves input) : k - 1 < (slaves input).length := by
  rw [length_slaves]
  have := mem_slaves.mp h
  omega

theorem holder_mem (h : k ∈ slaves input) : holder input k ∈ slaves input :=
  unrank_mem nodup_slaves (key_inj input) (lt_length_slaves h)

theorem place_holder (h : k ∈ slaves input) : place input (holder input k) = k := by
  rw [place, holder, rank_unrank nodup_slaves (key_inj input) (lt_length_slaves h)]
  have := mem_slaves.mp h
  omega

/-- The holder of a place is the only slave that sends to it. -/
theorem eq_holder_iff (h : k ∈ slaves input) (src : Nat) :
    src = holder input k ↔ src ∈ slaves input ∧ k = place input src := by
  constructor
  · rintro rfl
    exact ⟨holder_mem h, (place_holder h).symm⟩
  · rintro ⟨hs, rfl⟩
    exact (holder_place hs).symm

/-! ## The slaves -/

/-- The test of a slave is the order of the keys; no number is `EMPTY`. -/
theorem counts_iff {i : Nat} :
    number input id ≠ EMPTY ∧ number input i ≠ EMPTY ∧
      (i < id ∧ number input id ≥ number input i ∨ number input id > number input i) ↔
    key input i < key input id := by
  have hne (j : Nat) : number input j ≠ EMPTY := fun h => by
    have hlt := (byte input j).toNat_lt
    have heq := congrArg UInt16.toNat h
    rw [number, UInt8.toNat_toUInt16] at heq
    rw [heq] at hlt
    exact absurd hlt (by decide)
  rw [and_iff_right (hne id), and_iff_right (hne i), key_lt_key]
  simp only [ge_iff_le, gt_iff_lt, UInt16.le_iff_toNat_le, UInt16.lt_iff_toNat_lt, number,
    UInt8.toNat_toUInt16]
  omega

/-- How many of the first `k` numbers come before that of slave `id`. -/
def passed (input : List UInt8) (id k : Nat) : Nat :=
  (List.range' 1 k).countP fun i => decide (key input i < key input id)

theorem passed_succ : passed input id (k + 1) =
    passed input id k + if key input (k + 1) < key input id then 1 else 0 := by
  simp [passed, List.range'_1_concat, Nat.add_comm 1 k]

/-- The numbers pass slave `id`, which counts those that come before its own. -/
theorem performs_count :
    Performs (stream input) id (id + 1)
      (forLoop 1 (input.length + 1) (1 : UInt16) fun i c => do
        let y ← recv (id - 1) tag_y
        when (id ≠ input.length + 1 - 1) (send (id + 1) tag_y y)
        return if number input id ≠ EMPTY ∧ y ≠ EMPTY ∧
          (i < id ∧ number input id ≥ y ∨ number input id > y) then c + 1 else c)
      ((List.range input.length).flatMap (shiftEvents input id))
      (UInt16.ofNat (place input id)) (id + 1 + input.length) := by
  refine Performs.forLoop (fun k => UInt16.ofNat (passed input id k + 1)) (fun k => id + 1 + k)
    (shiftEvents input id) 1 (input.length + 1) fun k _ => ?_
  have hc : (if number input id ≠ EMPTY ∧ number input (k + 1) ≠ EMPTY ∧
      (1 + k < id ∧ number input id ≥ number input (k + 1) ∨
        number input id > number input (k + 1))
      then UInt16.ofNat (passed input id k + 1) + 1 else UInt16.ofNat (passed input id k + 1)) =
      UInt16.ofNat (passed input id (k + 1) + 1) := by
    rw [Nat.add_comm 1 k, if_congr counts_iff rfl rfl, passed_succ]
    split_ifs
    · exact (UInt16.ofNat_add _ 1).symm
    · rfl
  refine .recv_bind le_rfl ?_
  refine .when_bind (fun _ => .send le_rfl (.done le_rfl)) le_rfl ?_
  rw [← hc]
  exact .done (by omega)

/-- The sorted numbers pass slave `id`. -/
theorem performs_out : Performs (stream input) id (2 * input.length + 3)
    (forLoop 1 id (sorted input id) fun _ z => do
      send (next input id) tag_o z
      recv (id - 1) tag_o)
    ((List.range (id - 1)).flatMap (outEvents input id)) (sorted input (id - (id - 1)))
    (2 * input.length + 3 + (id - 1)) := by
  refine Performs.forLoop (fun k => sorted input (id - k)) (fun k => 2 * input.length + 3 + k)
    (outEvents input id) 1 id fun k _ => ?_
  refine .send_bind le_rfl ?_
  exact .recv (by omega) (.inl rfl) (.done (by omega))

section
variable (h16 : input.length ≤ 65535) (hid : id ∈ slaves input)
include h16 hid

theorem toNat_place : (UInt16.ofNat (place input id)).toNat = place input id :=
  UInt16.toNat_ofNat_of_lt (lt_of_le_of_lt (place_le hid) (Nat.lt_succ_of_le h16))

theorem performs_slave : Performs (stream input) id 0 (slave (input.length + 1) id)
    (slaveEvents input id) (vars input id) (2 * input.length + 3 + (id - 1)) := by
  have hle := mem_slaves.mp hid
  have hz : sorted input (id - (id - 1)) = sorted input 1 := by
    rw [Nat.sub_sub_self hle.1]
  have hany : ∀ src ≠ holder input id, stream input ⟨src, id, tag_z⟩ = [] := by
    intro src hne
    refine if_neg fun h => hne ((eq_holder_iff hid src).mpr ⟨mem_slaves.mpr ⟨h.1, h.2.1⟩, h.2.2⟩)
  have hvars : vars input id =
      { x := number input id, z := sorted input 1, c := UInt16.ofNat (place input id) } :=
    if_neg (by omega)
  refine .recv_bind (Nat.zero_le _) ?_
  refine .bind performs_count ?_
  simp only [toNat_place h16 hid]
  refine .send_bind (by omega) ?_
  refine .recvAny_bind (by omega) hany ?_
  refine .bind (performs_out.weaken (by omega)) ?_
  rw [hz, hvars]
  exact .send_bind le_rfl (.done le_rfl)

end

/-! ## The master -/

theorem performs_in : Performs (stream input) 0 1
    ((input.zipIdx 1).forM fun (byte, i) => do
      let number := byte.toUInt16
      when (i ≠ 1) (print " ")
      print (toString number)
      send i tag_x number
      send 1 tag_y number)
    ((List.range input.length).flatMap (inEvents input)) () (input.length + 1) := by
  rw [← List.length_zipIdx (l := input) (i := 1)]
  refine Performs.forM (fun k => k + 1) (inEvents input) fun k hk => ?_
  rw [List.length_zipIdx] at hk
  have hnum : input[k].toUInt16 = number input (k + 1) := by
    simp [number, byte, hk]
  rw [List.getElem_zipIdx, Nat.add_comm 1 k]
  simp only [hnum]
  refine .when_bind (fun _ => .print le_rfl (.done le_rfl)) le_rfl ?_
  refine .print_bind le_rfl ?_
  refine .send_bind le_rfl ?_
  exact .send le_rfl (.done (by omega))

/-- The vector of the master after `k` numbers. -/
def collected (input : List UInt8) (k : Nat) : List UInt16 :=
  (List.range input.length).map fun i => if input.length - k ≤ i then sorted input (i + 1) else 0

theorem collected_succ (hk : k < input.length) :
    (collected input k).set (input.length + 1 - (1 + k) - 1) (sorted input (input.length - k)) =
      collected input (k + 1) := by
  refine List.ext_getElem (by simp [collected]) fun i hi _ => ?_
  have hi : i < input.length := by simpa [collected] using hi
  simp only [collected, List.getElem_set, List.getElem_map, List.getElem_range]
  split_ifs with h1 h2 h3 h4
  · rw [show input.length - k = i + 1 by omega]
  all_goals first | rfl | omega

theorem performs_collect : Performs (stream input) 0 (2 * input.length + 4)
    (forLoop 1 (input.length + 1) (List.replicate (input.length + 1 - 1) (0 : UInt16))
      fun i numbers => do
        let n ← recv (input.length + 1 - 1) tag_o
        return numbers.set (input.length + 1 - i - 1) n)
    ((List.range input.length).flatMap (collectEvents input)) (collected input input.length)
    (2 * input.length + 4 + input.length) := by
  have h0 : List.replicate (input.length + 1 - 1) (0 : UInt16) = collected input 0 := by
    refine List.ext_getElem (by simp [collected]) fun i hi _ => ?_
    have hi : i < input.length := by simpa using hi
    simp [collected, hi]
  rw [h0]
  refine Performs.forLoop (collected input) (fun k => 2 * input.length + 4 + k)
    (collectEvents input) 1 (input.length + 1) fun k hk => ?_
  refine .recv_bind le_rfl ?_
  rw [collected_succ hk]
  exact .done (by omega)

theorem performs_print : Performs (stream input) 0 (3 * input.length + 4)
    ((collected input input.length).forM fun n => do
      print (toString n)
      print "\n")
    ((List.range input.length).flatMap (printEvents input)) () (3 * input.length + 4) := by
  have hlen : (collected input input.length).length = input.length := by simp [collected]
  have h : Performs (stream input) 0 (3 * input.length + 4)
      ((collected input input.length).forM fun n => do
        print (toString n)
        print "\n") _ () _ :=
    Performs.forM (fun _ => 3 * input.length + 4) (printEvents input) fun k hk => by
      have hk' : (collected input input.length)[k] = sorted input (k + 1) := by simp [collected]
      rw [hk']
      exact .print_bind le_rfl (.print le_rfl (.done le_rfl))
  rw [hlen] at h
  exact h

theorem performs_master : Performs (stream input) 0 0 (master (some input) (input.length + 1))
    (masterEvents input) (vars input 0) (3 * input.length + 4) := by
  refine .bind (performs_in.weaken (Nat.zero_le _)) ?_
  refine .print_bind le_rfl ?_
  refine .bind (performs_collect.weaken (by omega)) ?_
  refine .bind (performs_print.weaken (by omega)) ?_
  exact .done le_rfl

end EnumerationSort
