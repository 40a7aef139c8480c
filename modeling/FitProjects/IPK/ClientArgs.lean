import FitProjects.IPK.Passwd
import Mathlib.Data.List.Nodup

/-! # The arguments of the client

`ClientArgParser` of `IPK/proj1` on the options as `getopt` delivers them, and what `m_flags` and
`m_flagsOrder` say after an accepted command line. -/

namespace RemotePasswd

/-- The values of `m_flagsOrder`: the places of the fields in a record. -/
def Flag.order : Flag → Nat
  | userName => 0
  | uid => 1
  | gid => 2
  | name => 3
  | homeFolder => 4
  | shell => 5

/-- An option with its arguments. -/
inductive Opt
  | hostname (hostname : Str)
  | port (port : Int)
  | logins (logins : List Str)
  | uids (numbers : List Int)
  | column (flag : Flag)

namespace ClientArgs

def HOSTNAME : BitVec 32 := 0x001
def PORT : BitVec 32 := 0x002
def LOGINS : BitVec 32 := 0x004
def UIDS : BitVec 32 := 0x008

/-- The values of `ClientArgParser::Flags` for the fields. -/
def flagBit : Flag → BitVec 32
  | .userName => 0x010
  | .uid => 0x020
  | .gid => 0x040
  | .name => 0x080
  | .homeFolder => 0x100
  | .shell => 0x200

/-- `SetFlag` on `m_flags`. -/
def setFlag (m_flags flag : BitVec 32) : Except String (BitVec 32) :=
  if m_flags &&& flag ≠ 0 then .error "Arguments: Can't enter same argument more times"
  else
    let m_flags := m_flags ||| flag
    if flag = LOGINS then .ok (m_flags &&& ~~~UIDS)
    else if flag = UIDS then .ok (m_flags &&& ~~~LOGINS)
    else .ok m_flags

end ClientArgs

/-- `ClientArgParser` after `Parse`. `m_flagsOrder` is a list, its length is `m_order`. -/
structure ClientArgs where
  m_flags : BitVec 32
  m_hostname : Str
  m_port : Int
  m_flagsOrder : List Nat
  m_logins : List Str
  m_uids : List Nat

namespace ClientArgs

/-- The `switch` of `Parse`. -/
def parseOpt (args : ClientArgs) : Opt → Except String ClientArgs
  | .hostname hostname => do
    let m_flags ← setFlag args.m_flags HOSTNAME
    return { args with m_flags, m_hostname := hostname }
  | .port port => do
    let m_flags ← setFlag args.m_flags PORT
    if port ≤ 0 ∨ 65535 < port then .error "Arguments: Invalid port number"
    else .ok { args with m_flags, m_port := port }
  | .logins logins => do
    let m_flags ← setFlag args.m_flags LOGINS
    return { args with m_flags, m_logins := args.m_logins ++ logins }
  | .uids numbers => do
    let m_flags ← setFlag args.m_flags UIDS
    if numbers.any (· < 0) then .error "Arguments: Invalid UID"
    else .ok { args with m_flags, m_uids := args.m_uids ++ numbers.map Int.toNat }
  | .column flag => do
    let m_flags ← setFlag args.m_flags (flagBit flag)
    return { args with m_flags, m_flagsOrder := args.m_flagsOrder ++ [flag.order] }

/-- The loop of `Parse`. -/
def parseOpts (args : ClientArgs) : List Opt → Except String ClientArgs
  | [] => .ok args
  | opt :: opts => do parseOpts (← args.parseOpt opt) opts

/-- `Parse`. -/
def parse (opts : List Opt) : Except String ClientArgs := parseOpts ⟨0, [], 0, [], [], []⟩ opts

/-- `checkFlag`. -/
def checkFlag (args : ClientArgs) (flag : BitVec 32) : Bool := args.m_flags &&& flag ≠ 0

/-- `CheckValidity`. -/
def checkValidity (args : ClientArgs) : Except String Unit :=
  if args.m_flags &&& (HOSTNAME ||| PORT) ≠ HOSTNAME ||| PORT then
    .error "Arguments: Hostname and port are required"
  else if !args.checkFlag LOGINS && !args.checkFlag UIDS then
    .error "Arguments: You need specify at least one of: -l -u"
  else if args.checkFlag LOGINS && args.m_logins.isEmpty ||
      args.checkFlag UIDS && args.m_uids.isEmpty then
    .error "Arguments: You need specify list(at least one thing) in -l -u"
  else if args.m_flags.slt (flagBit .userName) then
    .error "Arguments: You need specify at least one of: -L -U -G -N -H -S"
  else .ok ()

end ClientArgs

/-- The fields asked for, in the order of the command line. -/
def columns (opts : List Opt) : List Flag :=
  opts.filterMap fun
    | .column flag => some flag
    | _ => none

namespace ClientArgs

variable {args args' : ClientArgs} {m m' : BitVec 32} {i j : Nat} {f : Flag} {opt : Opt}
  {opts : List Opt} {cs : List Flag}

/-! ## Bits -/

theorem flagBit_eq (f : Flag) : flagBit f = BitVec.twoPow 32 (f.order + 4) := by
  cases f <;> rfl

theorem twoPow_inj (hi : i < 32) : BitVec.twoPow 32 i = BitVec.twoPow 32 j ↔ i = j := by
  constructor
  · intro h
    have hbit := congrArg (·.getLsbD i) h
    simp only [BitVec.getLsbD_twoPow, hi, decide_true, Bool.true_and] at hbit
    have hji : j = i := by simpa using (Bool.and_eq_true_iff.mp hbit.symm).2
    exact hji.symm
  · rintro rfl
    rfl

theorem and_twoPow_eq_zero {m : BitVec w} (hi : i < w) :
    m &&& BitVec.twoPow w i = 0 ↔ m.getLsbD i = false := by
  rw [BitVec.and_twoPow]
  split
  · rename_i hbit
    have hne : BitVec.twoPow w i ≠ 0 := fun h => by
      simpa [hi] using congrArg (·.getLsbD i) h
    exact iff_of_false hne (by simp [hbit])
  · rename_i hbit
    exact iff_of_true rfl (Bool.not_eq_true _ ▸ hbit)

/-- The bit was not set and is set; setting one of the bits 2 and 3 clears the other. -/
theorem setFlag_spec (hi : i < 32) (h : setFlag m (BitVec.twoPow 32 i) = .ok m') :
    m.getLsbD i = false ∧ ∀ j, m'.getLsbD j =
      ((i = j || m.getLsbD j) && !(i = 2 && j = 3) && !(i = 3 && j = 2)) := by
  have hlogins : BitVec.twoPow 32 i = LOGINS ↔ i = 2 := twoPow_inj (j := 2) hi
  have huids : BitVec.twoPow 32 i = UIDS ↔ i = 3 := twoPow_inj (j := 3) hi
  have hset (j : Nat) : (m ||| BitVec.twoPow 32 i).getLsbD j = (decide (i = j) || m.getLsbD j) := by
    rw [BitVec.getLsbD_or, BitVec.getLsbD_twoPow, decide_eq_true hi, Bool.true_and, Bool.or_comm]
  have hclear (x : BitVec 32) (k j : Nat) :
      (x &&& ~~~BitVec.twoPow 32 k).getLsbD j = (x.getLsbD j && !decide (k = j)) := by
    by_cases hj : j < 32
    · simp [hj, eq_comm]
    · simp [hj, BitVec.getLsbD_of_ge x j (by omega)]
  rw [setFlag] at h
  split at h
  · cases h
  · rename_i hzero
    rw [Decidable.not_not, and_twoPow_eq_zero hi] at hzero
    refine ⟨hzero, fun j => ?_⟩
    simp only [hlogins, huids] at h
    split at h
    · rename_i h2
      obtain rfl := Except.ok.inj h
      rw [show UIDS = BitVec.twoPow 32 3 from rfl, hclear _ 3 j, hset]
      simp [h2, eq_comm]
    · split at h
      · rename_i h2 h3
        obtain rfl := Except.ok.inj h
        rw [show LOGINS = BitVec.twoPow 32 2 from rfl, hclear _ 2 j, hset]
        simp [h3, eq_comm]
      · rename_i h2 h3
        obtain rfl := Except.ok.inj h
        simp [hset, h2, h3]

/-! ## Accepted command lines -/

/-- What is kept by the loop of `Parse`: the flags and their order are those of the columns. -/
structure Parsed (args : ClientArgs) (cs : List Flag) : Prop where
  nodup : cs.Nodup
  order : args.m_flagsOrder = cs.map Flag.order
  flag : ∀ f, args.m_flags.getLsbD (f.order + 4) = true ↔ f ∈ cs
  high : ∀ j, 10 ≤ j → args.m_flags.getLsbD j = false
  oneList : ¬(args.m_flags.getLsbD 2 = true ∧ args.m_flags.getLsbD 3 = true)

theorem order_lt (f : Flag) : f.order < 6 := by cases f <;> decide

theorem order_injective : Function.Injective Flag.order := by
  intro f f' h
  cases f <;> cases f' <;> first | rfl | cases h

/-- Setting a bit that is not one of a column. -/
theorem Parsed.setFlag (h : Parsed args cs) (hi : i < 4)
    (hset : setFlag args.m_flags (BitVec.twoPow 32 i) = .ok m') :
    (∀ f, m'.getLsbD (f.order + 4) = true ↔ f ∈ cs) ∧ (∀ j, 10 ≤ j → m'.getLsbD j = false) ∧
      ¬(m'.getLsbD 2 = true ∧ m'.getLsbD 3 = true) := by
  obtain ⟨-, hbit⟩ := setFlag_spec (by omega) hset
  have hsame (j : Nat) (hj : 4 ≤ j) : m'.getLsbD j = args.m_flags.getLsbD j := by
    have h1 : i ≠ j := by omega
    have h2 : j ≠ 3 := by omega
    have h3 : j ≠ 2 := by omega
    simp [hbit, h1, h2, h3]
  refine ⟨fun f => ?_, fun j hj => ?_, ?_⟩
  · rw [hsame _ (by omega)]
    exact h.flag f
  · rw [hsame j (by omega)]
    exact h.high j hj
  · have hone := h.oneList
    simp only [hbit]
    by_cases h2 : i = 2
    · simp [h2]
    · by_cases h3 : i = 3
      · simp [h3]
      · simpa [h2, h3] using hone

theorem bind_eq_ok {x : Except String α} {f : α → Except String β} {b : β}
    (h : x >>= f = .ok b) : ∃ a, x = .ok a ∧ f a = .ok b := by
  cases x with
  | error e => cases h
  | ok a => exact ⟨a, rfl, h⟩

/-- Every option keeps the invariant, with one more column if it asks for one. -/
theorem Parsed.parseOpt (h : Parsed args cs) (hopt : args.parseOpt opt = .ok args') :
    Parsed args' (cs ++ columns [opt]) := by
  have hcommon {i : Nat} {m' : BitVec 32} (hi : i < 4)
      (hset : ClientArgs.setFlag args.m_flags (BitVec.twoPow 32 i) = .ok m') (hostname : Str)
      (port : Int) (logins : List Str) (uids : List Nat) :
      Parsed ⟨m', hostname, port, args.m_flagsOrder, logins, uids⟩ (cs ++ []) := by
    obtain ⟨hflag, hhigh, hone⟩ := h.setFlag hi hset
    rw [List.append_nil]
    exact ⟨h.nodup, h.order, hflag, hhigh, hone⟩
  cases opt with
  | hostname hostname =>
    obtain ⟨m', hset, hret⟩ := bind_eq_ok hopt
    obtain rfl := Except.ok.inj hret
    exact hcommon (i := 0) (by decide) hset _ _ _ _
  | port port =>
    obtain ⟨m', hset, hret⟩ := bind_eq_ok hopt
    split at hret
    · cases hret
    · obtain rfl := Except.ok.inj hret
      exact hcommon (i := 1) (by decide) hset _ _ _ _
  | logins logins =>
    obtain ⟨m', hset, hret⟩ := bind_eq_ok hopt
    obtain rfl := Except.ok.inj hret
    exact hcommon (i := 2) (by decide) hset _ _ _ _
  | uids numbers =>
    obtain ⟨m', hset, hret⟩ := bind_eq_ok hopt
    split at hret
    · cases hret
    · obtain rfl := Except.ok.inj hret
      exact hcommon (i := 3) (by decide) hset _ _ _ _
  | column flag =>
    obtain ⟨m', hset, hret⟩ := bind_eq_ok hopt
    obtain rfl := Except.ok.inj hret
    have hlt := order_lt flag
    rw [flagBit_eq] at hset
    obtain ⟨hnew, hbit⟩ := setFlag_spec (by omega) hset
    have hbit' (j : Nat) :
        m'.getLsbD j = (decide (flag.order + 4 = j) || args.m_flags.getLsbD j) := by
      have h2 : flag.order + 4 ≠ 2 := by omega
      have h3 : flag.order + 4 ≠ 3 := by omega
      simp [hbit, h2, h3]
    have hnotMem : flag ∉ cs := fun hmem => by
      rw [(h.flag flag).mpr hmem] at hnew
      cases hnew
    constructor
    · exact List.nodup_append.mpr ⟨h.nodup, List.nodup_singleton flag, fun a ha b hb hab =>
        hnotMem (List.mem_singleton.mp hb ▸ hab ▸ ha)⟩
    · rw [h.order, List.map_append]
      rfl
    · intro f
      rw [hbit', Bool.or_eq_true, h.flag, decide_eq_true_eq, Nat.add_right_cancel_iff,
        order_injective.eq_iff, List.mem_append, or_comm, eq_comm]
      exact or_congr_right List.mem_singleton.symm
    · intro j hj
      rw [hbit', h.high j hj, decide_eq_false (by omega), Bool.or_false]
    · have hone := h.oneList
      rw [hbit', hbit', decide_eq_false (by omega), decide_eq_false (by omega)]
      exact hone

theorem Parsed.parseOpts (h : Parsed args cs) (hopts : args.parseOpts opts = .ok args') :
    Parsed args' (cs ++ columns opts) := by
  induction opts generalizing args cs with
  | nil =>
    obtain rfl := Except.ok.inj hopts
    rwa [columns, List.filterMap_nil, List.append_nil]
  | cons opt opts ih =>
    obtain ⟨args₁, hopt, hopts⟩ := bind_eq_ok hopts
    have hcons : columns (opt :: opts) = columns [opt] ++ columns opts :=
      List.filterMap_append (l := [opt])
    rw [hcons, ← List.append_assoc]
    exact ih (h.parseOpt hopt) hopts

/-- What is known of the arguments of an accepted command line. -/
theorem parsed_of_parse (h : parse opts = .ok args) : Parsed args (columns opts) := by
  have hinit : Parsed ⟨0, [], 0, [], [], []⟩ [] := by
    refine ⟨List.nodup_nil, rfl, fun f => ?_, fun j hj => ?_, ?_⟩ <;> simp
  exact hinit.parseOpts h

theorem checkFlag_eq_true (hi : i < 32) :
    args.checkFlag (BitVec.twoPow 32 i) = true ↔ args.m_flags.getLsbD i = true := by
  rw [checkFlag, decide_eq_true_eq, ne_eq, and_twoPow_eq_zero hi, Bool.not_eq_false]

theorem exists_order (hi : i < 6) : ∃ f : Flag, f.order = i := by
  have hall : ∀ i < 6, ∃ f ∈ Flag.all, f.order = i := by decide
  obtain ⟨f, -, hf⟩ := hall i hi
  exact ⟨f, hf⟩

/-- Without columns the flags are smaller than the flag of the first column. -/
theorem Parsed.slt_of_nil (h : Parsed args []) :
    args.m_flags.slt (flagBit .userName) = true := by
  have hlt : args.m_flags.toNat < 2 ^ 4 := by
    refine Nat.lt_pow_two_of_testBit _ fun i hi => ?_
    by_cases hi10 : i < 10
    · obtain ⟨f, hf⟩ := exists_order (i := i - 4) (by omega)
      have hbit := h.flag f
      rw [hf, Nat.sub_add_cancel hi, iff_false_right List.not_mem_nil, Bool.not_eq_true] at hbit
      exact hbit
    · exact h.high i (by omega)
  rw [BitVec.slt, decide_eq_true_eq, BitVec.toInt_eq_toNat_of_lt (by omega)]
  change (args.m_flags.toNat : Int) < 16
  omega

/-- `CheckValidity` makes sure that there is a list and a column. -/
theorem Parsed.of_checkValidity (h : Parsed args cs) (hvalid : args.checkValidity = .ok ()) :
    (args.checkFlag LOGINS = true ∨ args.checkFlag UIDS = true) ∧ cs ≠ [] := by
  rw [checkValidity] at hvalid
  split at hvalid
  · cases hvalid
  · split at hvalid
    · cases hvalid
    · rename_i hlists
      split at hvalid
      · cases hvalid
      · split at hvalid
        · cases hvalid
        · rename_i hslt
          constructor
          · cases hl : args.checkFlag LOGINS with
            | true => exact .inl rfl
            | false => exact .inr (by simpa [hl] using hlists)
          · rintro rfl
            exact hslt h.slt_of_nil

/-! ## The flags of the request -/

/-- `flags >> 3` as `unsigned char`. -/
def requestFlags (args : ClientArgs) : UInt8 := ⟨(args.m_flags.sshiftRight 3).setWidth 8⟩

theorem getLsbD_requestFlags (args : ClientArgs) (hi : i < 8) :
    args.requestFlags.toBitVec.getLsbD i = args.m_flags.getLsbD (i + 3) := by
  rw [requestFlags, BitVec.getLsbD_setWidth, BitVec.getLsbD_sshiftRight, decide_eq_true hi,
    decide_eq_false (show ¬32 ≤ i by omega), if_pos (show 3 + i < 32 by omega), Nat.add_comm]
  rfl

theorem and_bit_ne_zero (args : ClientArgs) {b : UInt8} (hi : i < 8)
    (hb : b.toBitVec = BitVec.twoPow 8 i) :
    args.requestFlags &&& b ≠ 0 ↔ args.m_flags.getLsbD (i + 3) = true := by
  rw [ne_eq, ← UInt8.toBitVec_inj, UInt8.toBitVec_and, hb]
  change ¬(_ = (0 : BitVec 8)) ↔ _
  rw [and_twoPow_eq_zero hi, getLsbD_requestFlags args hi, Bool.not_eq_false]

/-- The requested fields are those of the columns. -/
theorem Parsed.and_bit_ne_zero (h : Parsed args cs) (f : Flag) :
    args.requestFlags &&& f.bit ≠ 0 ↔ f ∈ cs := by
  have hbit : f.bit.toBitVec = BitVec.twoPow 8 (f.order + 1) := by cases f <;> rfl
  rw [ClientArgs.and_bit_ne_zero args (by have := order_lt f; omega) hbit]
  exact h.flag f

theorem and_LOGIN_OR_UID_ne_zero (args : ClientArgs) :
    args.requestFlags &&& LOGIN_OR_UID ≠ 0 ↔ args.checkFlag UIDS = true := by
  rw [and_bit_ne_zero args (i := 0) (b := LOGIN_OR_UID) (by decide) rfl]
  exact (checkFlag_eq_true (i := 3) (by decide)).symm

theorem Parsed.requestFlags_lt (h : Parsed args cs) : args.requestFlags < 128 := by
  rw [UInt8.lt_iff_toNat_lt]
  refine Nat.lt_pow_two_of_testBit (n := 7) _ fun i hi => ?_
  by_cases hi8 : i < 8
  · exact (getLsbD_requestFlags args hi8).trans (h.high _ (by omega))
  · exact BitVec.getLsbD_of_ge _ _ (by omega)

end ClientArgs

end RemotePasswd
