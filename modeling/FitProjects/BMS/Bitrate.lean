import FitProjects.BMS.Demultiplexor
import FitProjects.Lib.Splits
import Mathlib.Algebra.BigOperators.Group.Finset.Basic
import Mathlib.Algebra.Order.Field.Rat
import Mathlib.Data.Finset.Sort
import Mathlib.Tactic.FieldSimp

/-! # The bitrates of the programs

`bindMaps` of `BMS/proj2/Demultiplexor.cpp`. The loop adds the packets of the elementary PIDs of a
program to the counter of its PMT PID, in the map that it reads the next numbers from. So a program
gets the packets that were added for an earlier one with the same PMT PID, or with a PMT PID that is
one of its elementary PIDs; and a PMT PID among the own elementary PIDs counts what was added before
twice (`excess`). Bitrates are rational numbers. -/

/-- What `bindMaps` reads besides the tables. A PID that is not in `packetsCounter` has `none`. -/
structure Counters where
  packetsCounter : UInt16 → Option UInt32
  packets : UInt32
  totalBitrate : UInt64

/-- `ProgramInfo` with what `bindMaps` fills in. -/
structure BoundProgram extends ProgramInfo where
  pid : UInt16
  bitrate : ℚ

namespace Demultiplexor

section
variable (d : Demultiplexor) (c : Counters)

/-- `programElementary` after the first loop: the PIDs without packets are erased. -/
def knownElementary (serviceID : UInt16) : Finset UInt16 :=
  (d.programElementary serviceID).filter fun e => (c.packetsCounter e).isSome

/-- `PAT[program.serviceID]` -/
def pmtPid (serviceID : UInt16) : UInt16 := (d.PAT serviceID).getD 0

/-- The loop over the elementary PIDs. -/
def addElementary (counter : UInt16 → UInt32) (pid : UInt16) (epids : List UInt16) :
    UInt16 → UInt32 :=
  epids.foldl (fun counter epid => Function.update counter pid (counter pid + counter epid)) counter

/-- The bitrate for a number of packets. -/
def rate (n : Nat) : ℚ := n / c.packets.toNat * c.totalBitrate.toNat / (1000 * 1000)

/-- The loop over the programs. A set is gone through in ascending order. -/
def bindPrograms (counter : UInt16 → UInt32) : List ProgramInfo → List BoundProgram
  | [] => []
  | program :: programs =>
    let pid := d.pmtPid program.serviceID
    let counter :=
      addElementary counter pid ((knownElementary d c program.serviceID).sort (· ≤ ·))
    { toProgramInfo := program, pid, bitrate := rate c (counter pid).toNat } ::
      bindPrograms counter programs

/-- `bindMaps`: the programs afterwards. -/
def bindMaps : List BoundProgram :=
  (bindPrograms d c (fun pid => (c.packetsCounter pid).getD 0) d.programs).mergeSort
    fun a b => a.pid ≤ b.pid

/-! ## The numbers of packets before the call -/

def counted (pid : UInt16) : Nat := ((c.packetsCounter pid).getD 0).toNat

/-- The packets of the elementary PIDs of a program. -/
def streamPackets (serviceID : UInt16) : Nat :=
  ∑ e ∈ knownElementary d c serviceID, counted c e

/-- The packets of a program. -/
def programPackets (serviceID : UInt16) : Nat :=
  counted c (d.pmtPid serviceID) + streamPackets d c serviceID

/-- The packets added to the counter of a PID for the last of some programs with this PMT PID. -/
def added (before : List ProgramInfo) (pid : UInt16) : Nat :=
  match before.reverse.find? fun program => d.pmtPid program.serviceID = pid with
  | some program => streamPackets d c program.serviceID
  | none => 0

/-- The packets that a program gets too many behind the programs `before`. -/
def excess (before : List ProgramInfo) (serviceID : UInt16) : Nat :=
  let pid := d.pmtPid serviceID
  let epids := knownElementary d c serviceID
  added d c before pid + ∑ e ∈ epids, added d c before e +
    if pid ∈ epids then ∑ e ∈ epids.filter (· < pid), (counted c e + added d c before e) else 0

/-- Every program gets the bitrate of its packets. -/
structure Accounted : Prop where
  programs : ((bindMaps d c).map BoundProgram.toProgramInfo).Perm d.programs
  bitrate : ∀ p ∈ bindMaps d c, p.bitrate = rate c (programPackets d c p.serviceID)

end

variable {d : Demultiplexor} {c : Counters} {counter : UInt16 → UInt32} {pid : UInt16}
  {epids : List UInt16} {before programs : List ProgramInfo}

/-! ## One program -/

/-- The loop over the elementary PIDs on natural numbers; `n` is the counter of `pid`. -/
def addUp (count : UInt16 → Nat) (pid : UInt16) (n : Nat) (epids : List UInt16) : Nat :=
  epids.foldl (fun n e => n + if e = pid then n else count e) n

theorem addElementary_eq {count : UInt16 → Nat} {n : Nat} (hpid : counter pid = UInt32.ofNat n)
    (hother : ∀ e, e ≠ pid → counter e = UInt32.ofNat (count e)) (epids : List UInt16) :
    addElementary counter pid epids pid = UInt32.ofNat (addUp count pid n epids) ∧
      ∀ e, e ≠ pid → addElementary counter pid epids e = counter e := by
  induction epids generalizing counter n with
  | nil => exact ⟨hpid, fun e _ => rfl⟩
  | cons e epids ih =>
    have hadd : counter pid + counter e = UInt32.ofNat (n + if e = pid then n else count e) := by
      rw [UInt32.ofNat_add, hpid]
      split_ifs with he
      · rw [he, hpid]
      · rw [hother e he]
    have hpid' : Function.update counter pid (counter pid + counter e) pid =
        UInt32.ofNat (n + if e = pid then n else count e) := by rw [Function.update_self, hadd]
    have hother' (e' : UInt16) (he' : e' ≠ pid) :
        Function.update counter pid (counter pid + counter e) e' = UInt32.ofNat (count e') := by
      rw [Function.update_of_ne he', hother e' he']
    obtain ⟨hsum, hsame⟩ := ih hpid' hother'
    exact ⟨hsum, fun e' he' => (hsame e' he').trans (Function.update_of_ne he' _ _)⟩

theorem addUp_of_notMem {count : UInt16 → Nat} (h : pid ∉ epids) (n : Nat) :
    addUp count pid n epids = n + (epids.map count).sum := by
  induction epids generalizing n with
  | nil => rfl
  | cons e epids ih =>
    rw [List.mem_cons, not_or] at h
    rw [addUp, List.foldl_cons, if_neg (Ne.symm h.1), ← addUp, ih h.2, List.map_cons, List.sum_cons,
      Nat.add_assoc]

theorem addUp_append (count : UInt16 → Nat) (n : Nat) (l m : List UInt16) :
    addUp count pid n (l ++ m) = addUp count pid (addUp count pid n l) m :=
  List.foldl_append

theorem sum_map_sort (s : Finset UInt16) (count : UInt16 → Nat) :
    ((s.sort (· ≤ ·)).map count).sum = ∑ e ∈ s, count e := by
  rw [← List.sum_toFinset count (Finset.sort_nodup s _), Finset.sort_toFinset]

/-- A PID that is one of the added ones counts twice what was added before it. -/
theorem addUp_sort (count : UInt16 → Nat) (pid : UInt16) (s : Finset UInt16) :
    addUp count pid (count pid) (s.sort (· ≤ ·)) = count pid + ∑ e ∈ s, count e +
      if pid ∈ s then ∑ e ∈ s.filter (· < pid), count e else 0 := by
  by_cases hmem : pid ∈ s
  · obtain ⟨l, m, hsplit⟩ := List.append_of_mem ((Finset.mem_sort (· ≤ ·)).mpr hmem)
    have hsorted := Finset.pairwise_sort s (· ≤ ·)
    have hnodup := Finset.sort_nodup s (· ≤ ·)
    rw [hsplit] at hsorted hnodup
    have hl : pid ∉ l := fun h =>
      (List.nodup_append.mp hnodup).2.2 pid h pid List.mem_cons_self rfl
    have hm : pid ∉ m := (List.nodup_cons.mp (List.nodup_append.mp hnodup).2.1).1
    have hbelow : l.toFinset = s.filter (· < pid) := by
      ext e
      rw [List.mem_toFinset, Finset.mem_filter, ← Finset.mem_sort (· ≤ ·), hsplit]
      obtain ⟨-, hpost, hcross⟩ := List.pairwise_append.mp hsorted
      constructor
      · intro he
        have hle : e ≤ pid := hcross e he pid List.mem_cons_self
        have hne : e ≠ pid := fun h => hl (h ▸ he)
        refine ⟨List.mem_append_left _ he, ?_⟩
        rw [UInt16.lt_iff_toNat_lt]
        have := UInt16.le_iff_toNat_le.mp hle
        have := mt UInt16.toNat_inj.mp hne
        omega
      · rintro ⟨he, hlt⟩
        rcases List.mem_append.mp he with he | he
        · exact he
        · rcases List.mem_cons.mp he with rfl | he
          · exact absurd hlt (UInt16.lt_irrefl e)
          · exact absurd ((List.pairwise_cons.mp hpost).1 e he) (UInt16.not_le.mpr hlt)
    have hsum : ∑ e ∈ s, count e = (l.map count).sum + (count pid + (m.map count).sum) := by
      rw [← sum_map_sort, hsplit, List.map_append, List.map_cons, List.sum_append, List.sum_cons]
    rw [if_pos hmem, ← hbelow,
      List.sum_toFinset count (List.Nodup.of_append_left hnodup), hsum, hsplit, addUp_append,
      addUp_of_notMem hl, addUp, List.foldl_cons, if_pos rfl, ← addUp, addUp_of_notMem hm]
    omega
  · rw [if_neg hmem, addUp_of_notMem (mt (Finset.mem_sort _).mp hmem), sum_map_sort, Nat.add_zero]

/-! ## All programs -/

theorem added_concat (before : List ProgramInfo) (program : ProgramInfo) (pid : UInt16) :
    added d c (before ++ [program]) pid =
      if d.pmtPid program.serviceID = pid then streamPackets d c program.serviceID
      else added d c before pid := by
  rw [added, List.reverse_append, List.reverse_singleton, List.singleton_append, List.find?_cons]
  by_cases hpid : d.pmtPid program.serviceID = pid
  · simp [hpid]
  · simp [hpid, added]

/-- The counters behind some programs that got the right numbers. -/
def Holds (d : Demultiplexor) (c : Counters) (before : List ProgramInfo)
    (counter : UInt16 → UInt32) : Prop :=
  ∀ pid, counter pid = UInt32.ofNat (counted c pid + added d c before pid)

/-- The packets of a program fit into its counter, and none are counted too many. -/
def CountedOnce (d : Demultiplexor) (c : Counters) (before : List ProgramInfo)
    (program : ProgramInfo) : Prop :=
  programPackets d c program.serviceID < 2 ^ 32 ∧ 2 ^ 32 ∣ excess d c before program.serviceID

/-- The counters after one program. -/
def counterAfter (d : Demultiplexor) (c : Counters) (counter : UInt16 → UInt32)
    (program : ProgramInfo) : UInt16 → UInt32 :=
  addElementary counter (d.pmtPid program.serviceID)
    ((knownElementary d c program.serviceID).sort (· ≤ ·))

theorem counterAfter_eq (h : Holds d c before counter) (program : ProgramInfo) :
    counterAfter d c counter program (d.pmtPid program.serviceID) =
        UInt32.ofNat (programPackets d c program.serviceID +
          excess d c before program.serviceID) ∧
      ∀ pid, pid ≠ d.pmtPid program.serviceID →
        counterAfter d c counter program pid = counter pid := by
  have hadd := addElementary_eq (h (d.pmtPid program.serviceID)) (fun e _ => h e)
    ((knownElementary d c program.serviceID).sort (· ≤ ·))
  rw [addUp_sort fun e => counted c e + added d c before e, Finset.sum_add_distrib] at hadd
  refine ⟨hadd.1.trans (congrArg UInt32.ofNat ?_), hadd.2⟩
  rw [programPackets, excess, streamPackets]
  omega

/-- A program gets the right number exactly if it is counted once. -/
theorem counterAfter_iff (h : Holds d c before counter) (program : ProgramInfo) :
    (counterAfter d c counter program (d.pmtPid program.serviceID)).toNat =
      programPackets d c program.serviceID ↔ CountedOnce d c before program := by
  rw [(counterAfter_eq h program).1, UInt32.toNat_ofNat', CountedOnce]
  omega

theorem CountedOnce.holds (hone : CountedOnce d c before program) (h : Holds d c before counter) :
    Holds d c (before ++ [program]) (counterAfter d c counter program) := by
  intro pid
  rw [added_concat]
  by_cases hpid : d.pmtPid program.serviceID = pid
  · rw [if_pos hpid, ← hpid, ← programPackets, ← UInt32.toNat_inj,
      (counterAfter_iff h program).mpr hone, UInt32.toNat_ofNat', Nat.mod_eq_of_lt hone.1]
  · rw [if_neg hpid, (counterAfter_eq h program).2 pid (Ne.symm hpid), h pid]

theorem rate_inj (hpackets : c.packets ≠ 0) (htotal : c.totalBitrate ≠ 0) {m n : Nat} :
    rate c m = rate c n ↔ m = n := by
  have hpackets' : (c.packets.toNat : ℚ) ≠ 0 := by
    rw [Nat.cast_ne_zero]
    exact fun h => hpackets (UInt32.toNat_inj.mp h)
  have htotal' : (c.totalBitrate.toNat : ℚ) ≠ 0 := by
    rw [Nat.cast_ne_zero]
    exact fun h => htotal (UInt64.toNat_inj.mp h)
  rw [rate, rate]
  constructor
  · intro h
    field_simp at h
    exact_mod_cast h
  · rintro rfl
    rfl

theorem bindPrograms_iff (hpackets : c.packets ≠ 0) (htotal : c.totalBitrate ≠ 0)
    (h : Holds d c before counter) (programs : List ProgramInfo) :
    (∀ p ∈ bindPrograms d c counter programs,
        p.bitrate = rate c (programPackets d c p.serviceID)) ↔
      ∀ pre program post, programs = pre ++ program :: post →
        CountedOnce d c (before ++ pre) program := by
  induction programs generalizing before counter with
  | nil => simp [bindPrograms]
  | cons program programs ih =>
    rw [List.forall_split_cons, List.append_nil, bindPrograms, List.forall_mem_cons,
      rate_inj hpackets htotal]
    refine (and_congr_left' (counterAfter_iff h program)).trans (and_congr_right fun hone => ?_)
    refine (ih (hone.holds h)).trans ?_
    simp only [List.append_assoc, List.singleton_append]

theorem toProgramInfo_bindPrograms (counter : UInt16 → UInt32) (programs : List ProgramInfo) :
    (bindPrograms d c counter programs).map BoundProgram.toProgramInfo = programs := by
  induction programs generalizing counter with
  | nil => rfl
  | cons program programs ih => rw [bindPrograms, List.map_cons, ih]

theorem exists_rate_of_mem {p : BoundProgram} (hp : p ∈ bindPrograms d c counter programs) :
    ∃ n, p.bitrate = rate c n := by
  induction programs generalizing counter with
  | nil => cases hp
  | cons program programs ih =>
    rcases List.mem_cons.mp hp with rfl | hp
    · exact ⟨_, rfl⟩
    · exact ih hp

/-- Sorting keeps the programs and their bitrates. -/
theorem accounted_iff_forall : Accounted d c ↔
    ∀ p ∈ bindPrograms d c (fun pid => (c.packetsCounter pid).getD 0) d.programs,
      p.bitrate = rate c (programPackets d c p.serviceID) := by
  have hperm : ((bindMaps d c).map BoundProgram.toProgramInfo).Perm d.programs := by
    have hsort := List.mergeSort_perm
      (bindPrograms d c (fun pid => (c.packetsCounter pid).getD 0) d.programs)
      fun a b => a.pid ≤ b.pid
    have hmap := hsort.map BoundProgram.toProgramInfo
    rwa [toProgramInfo_bindPrograms] at hmap
  constructor
  · exact fun h p hp => h.bitrate p (List.mem_mergeSort.mpr hp)
  · exact fun h => ⟨hperm, fun p hp => h p (List.mem_mergeSort.mp hp)⟩

theorem holds_nil : Holds d c [] fun pid => (c.packetsCounter pid).getD 0 := by
  intro pid
  rw [added]
  simp [counted]

/-- `bindMaps` accounts the bitrates exactly if the packets of every program fit into its counter
and none are counted too many, unless the total bitrate is 0. -/
theorem accounted_iff (hpackets : c.packets ≠ 0) :
    Accounted d c ↔ c.totalBitrate = 0 ∨
      ∀ before program after, d.programs = before ++ program :: after →
        CountedOnce d c before program := by
  rw [accounted_iff_forall]
  by_cases htotal : c.totalBitrate = 0
  · refine iff_of_true (fun p hp => ?_) (.inl htotal)
    obtain ⟨n, hn⟩ := exists_rate_of_mem hp
    rw [hn, rate, rate, htotal]
    simp
  · rw [bindPrograms_iff hpackets htotal holds_nil, or_iff_right htotal]
    rfl

/-- Two programs with the PMT PID 0x100 and one stream each. -/
def sharedPmt : Demultiplexor :=
  { init with
    PAT := fun n => if n = 1 ∨ n = 2 then some 0x100 else none
    programElementary := fun n => if n = 1 then {0x101} else if n = 2 then {0x102} else ∅
    programs := [⟨1, [], []⟩, ⟨2, [], []⟩] }

def sharedCounters : Counters where
  packetsCounter := fun pid =>
    if pid = 0x100 then some 1 else if pid = 0x101 then some 2 else if pid = 0x102 then some 3
    else none
  packets := 6
  totalBitrate := 6000000

theorem accounted_iff_sharedPmt :
    Accounted sharedPmt sharedCounters ↔ sharedCounters.totalBitrate = 0 ∨
      ∀ before program after, sharedPmt.programs = before ++ program :: after →
        CountedOnce sharedPmt sharedCounters before program :=
  accounted_iff (by decide)

/-- The second program gets the two packets of the stream of the first one. -/
theorem not_accounted_sharedPmt :
    ¬ ∀ (d : Demultiplexor) (c : Counters), c.packets ≠ 0 →
      (d.programs.map ProgramInfo.serviceID).Nodup →
      (∀ p ∈ d.programs, (d.PAT p.serviceID).isSome) → Accounted d c := by
  intro h
  have hacc := h sharedPmt sharedCounters (by decide) (by decide) (by decide)
  rw [accounted_iff_forall, bindPrograms_iff (by decide) (by decide) holds_nil] at hacc
  have hone := hacc [⟨1, [], []⟩] ⟨2, [], []⟩ [] rfl
  have hexcess : excess sharedPmt sharedCounters [⟨1, [], []⟩] 2 = 2 := by decide
  have hdvd := hone.2
  rw [List.nil_append, hexcess] at hdvd
  exact absurd hdvd (by decide)

end Demultiplexor
