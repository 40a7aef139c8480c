import FitProjects.PRL.EnumerationSchedule

/-! # The enumeration sort sorts

On each channel what one process sends is what the other one receives, so the events of the schedule
fit together and every run follows them. -/

namespace EnumerationSort

open MessagePassing History Tags

variable {input : List UInt8} {id : Nat}

/-! ## The channels -/

theorem sends_master (dst : Nat) (tag : Tags) : sends ⟨0, dst, tag⟩ (masterEvents input) =
    (stream input ⟨0, dst, tag⟩).map fun d => (d.sent, d.body) := by
  cases tag with
  | tag_x =>
    cases dst with
    | zero => simp [masterEvents, inEvents, collectEvents, printEvents, stream]
    | succ j =>
      have hstream : stream input ⟨0, j + 1, tag_x⟩ = if j < input.length then
          [⟨j + 1, j + 2, number input (j + 1), Nat.lt_succ_self _⟩] else [] :=
        if_congr (by omega) rfl rfl
      simp [masterEvents, inEvents, collectEvents, printEvents, hstream,
        flatMap_range_if (f := fun k => [(k + 1, number input (k + 1))]), apply_ite (List.map _)]
  | tag_y =>
    by_cases hdst : dst = 1
    · subst hdst
      rcases Nat.eq_zero_or_pos input.length with hn | hn
      · simp [masterEvents, stream, hn]
      · have hle : 1 ≤ input.length := hn
        simp [masterEvents, inEvents, collectEvents, printEvents, stream, hle,
          flatMap_singleton_eq_map, Nat.add_comm 1]
    · simp [masterEvents, inEvents, collectEvents, printEvents, stream, hdst, Ne.symm hdst]
  | tag_z => simp [masterEvents, inEvents, collectEvents, printEvents, stream]
  | tag_o => simp [masterEvents, inEvents, collectEvents, printEvents, stream]

theorem sends_slave (hid : id ∈ slaves input) (dst : Nat) (tag : Tags) :
    sends ⟨id, dst, tag⟩ (slaveEvents input id) =
      (stream input ⟨id, dst, tag⟩).map fun d => (d.sent, d.body) := by
  obtain ⟨h1, hn⟩ := mem_slaves.mp hid
  have h0 : id ≠ 0 := by omega
  cases tag with
  | tag_x => simp [slaveEvents, shiftEvents, outEvents, stream, h0]
  | tag_y =>
    by_cases hdst : id ≠ input.length ∧ dst = id + 1
    · obtain ⟨hne, rfl⟩ := hdst
      have hlt : id + 1 ≤ input.length := by omega
      simp [slaveEvents, shiftEvents, outEvents, stream, flatMap_singleton_eq_map, hne, hlt]
    · have hnil : stream input ⟨id, dst, tag_y⟩ = [] := if_neg (by omega)
      have hno : id ≠ input.length → id + 1 ≠ dst := by omega
      rw [hnil]
      by_cases hne : id = input.length
      · simp [slaveEvents, shiftEvents, outEvents, hne]
      · simp [slaveEvents, shiftEvents, outEvents, hne, hno hne]
  | tag_z =>
    simp [slaveEvents, shiftEvents, outEvents, stream, h1, hn, eq_comm, apply_ite (List.map _)]
  | tag_o =>
    by_cases hdst : dst = next input id
    · subst hdst
      obtain ⟨k, rfl⟩ := Nat.exists_eq_add_of_le' h1
      simp [slaveEvents, shiftEvents, outEvents, stream, flatMap_singleton_eq_map, hn,
        List.range_succ]
    · simp [slaveEvents, shiftEvents, outEvents, stream, hdst, Ne.symm hdst]

theorem recvs_master (src : Nat) (tag : Tags) : recvs ⟨src, 0, tag⟩ (masterEvents input) =
    (stream input ⟨src, 0, tag⟩).map fun d => (d.received, d.body) := by
  cases tag with
  | tag_x => simp [masterEvents, inEvents, collectEvents, printEvents, stream]
  | tag_y => simp [masterEvents, inEvents, collectEvents, printEvents, stream]
  | tag_z => simp [masterEvents, inEvents, collectEvents, printEvents, stream, place]
  | tag_o =>
    by_cases hsrc : src = input.length
    · subst hsrc
      rcases Nat.eq_zero_or_pos input.length with hn | hn
      · simp [masterEvents, stream, hn]
      · have hle : 1 ≤ input.length := hn
        simp [masterEvents, inEvents, collectEvents, printEvents, stream, next, hle,
          flatMap_singleton_eq_map]
    · simp [masterEvents, inEvents, collectEvents, printEvents, stream, next, hsrc, Ne.symm hsrc]

theorem recvs_slave (hid : id ∈ slaves input) (src : Nat) (tag : Tags) :
    recvs ⟨src, id, tag⟩ (slaveEvents input id) =
      (stream input ⟨src, id, tag⟩).map fun d => (d.received, d.body) := by
  obtain ⟨h1, hn⟩ := mem_slaves.mp hid
  obtain ⟨k, rfl⟩ := Nat.exists_eq_add_of_le' h1
  cases tag with
  | tag_x =>
    simp [slaveEvents, shiftEvents, outEvents, stream, hn, eq_comm, apply_ite (List.map _)]
  | tag_y =>
    by_cases hsrc : src = k
    · subst hsrc
      simp [slaveEvents, shiftEvents, outEvents, stream, hn, flatMap_singleton_eq_map,
        Nat.add_assoc]
    · simp [slaveEvents, shiftEvents, outEvents, stream, Ne.symm hsrc]
  | tag_z =>
    have hh := eq_holder_iff hid src
    rw [mem_slaves, and_assoc] at hh
    by_cases hsrc : src = holder input (k + 1)
    · subst hsrc
      have hone : stream input ⟨holder input (k + 1), k + 1, tag_z⟩ = [⟨2 * input.length + 1,
          2 * input.length + 2, number input (holder input (k + 1)), Nat.lt_succ_self _⟩] :=
        if_pos (hh.mp rfl)
      simp [hone, slaveEvents, shiftEvents, outEvents, sorted]
    · have hnil : stream input ⟨src, k + 1, tag_z⟩ = [] := if_neg (mt hh.mpr hsrc)
      simp [hnil, slaveEvents, shiftEvents, outEvents, Ne.symm hsrc]
  | tag_o =>
    by_cases hsrc : src = k
    · subst hsrc
      rcases Nat.eq_zero_or_pos src with rfl | hpos
      · simp [slaveEvents, shiftEvents, stream]
      · have hle : 1 ≤ src ∧ src ≤ input.length ∧ src ≠ input.length := by omega
        simp [slaveEvents, shiftEvents, outEvents, stream, next, flatMap_singleton_eq_map, hle]
    · have hno : ¬(1 ≤ src ∧ src ≤ input.length ∧ k + 1 = next input src) := by
        rintro ⟨-, -, hnext⟩
        unfold next at hnext
        split_ifs at hnext
        omega
      have hnil : stream input ⟨src, k + 1, tag_o⟩ = [] := if_neg hno
      simp [hnil, slaveEvents, shiftEvents, outEvents, Ne.symm hsrc]

theorem stream_of_src {src dst : Nat} {tag : Tags} (h : input.length < src) :
    stream input ⟨src, dst, tag⟩ = [] := by
  cases tag <;> exact if_neg (by omega)

theorem stream_of_dst {src dst : Nat} {tag : Tags} (h : input.length < dst) :
    stream input ⟨src, dst, tag⟩ = [] := by
  cases tag with
  | tag_x | tag_y => exact if_neg (by omega)
  | tag_z =>
    refine if_neg fun ⟨h1, hn, hp⟩ => ?_
    have := place_le (mem_slaves.mpr ⟨h1, hn⟩)
    omega
  | tag_o =>
    refine if_neg fun ⟨h1, hn, hp⟩ => ?_
    unfold next at hp
    split_ifs at hp <;> omega

theorem events_slave (hid : id ∈ slaves input) : events input id = slaveEvents input id := by
  obtain ⟨h1, hn⟩ := mem_slaves.mp hid
  rw [events, if_neg (by omega), if_pos hn]

theorem events_absent (h : input.length < id) : events input id = [] := by
  rw [events, if_neg (by omega), if_neg (by omega)]

/-- The processes are the master, the slaves and no others. -/
theorem cases_id (input : List UInt8) (id : Nat) :
    id = 0 ∨ id ∈ slaves input ∨ input.length < id := by
  rw [mem_slaves]
  omega

/-! ## The schedule -/

def schedule (input : List UInt8) (h16 : input.length ≤ 65535) :
    Schedule (input.length + 1) (main (some input) (input.length + 1)) where
  stream := stream input
  events := events input
  result := vars input
  performs p hp := by
    rcases cases_id input p with rfl | hid | hlt
    · exact ⟨_, performs_master⟩
    · have hne : p ≠ 0 := by have := mem_slaves.mp hid; omega
      rw [events_slave hid, main, if_neg hne]
      exact ⟨_, performs_slave h16 hid⟩
    · omega
  absent p hp := events_absent hp
  sends_eq c := by
    obtain ⟨src, dst, tag⟩ := c
    rcases cases_id input src with rfl | hid | hlt
    · exact sends_master dst tag
    · rw [events_slave hid]
      exact sends_slave hid dst tag
    · rw [events_absent hlt, stream_of_src hlt]
      rfl
  recvs_eq c := by
    obtain ⟨src, dst, tag⟩ := c
    rcases cases_id input dst with rfl | hid | hlt
    · exact recvs_master src tag
    · rw [events_slave hid]
      exact recvs_slave hid src tag
    · rw [events_absent hlt, stream_of_dst hlt]
      rfl

/-! ## The result -/

/-- The text that the master prints: the numbers as they are read, and a vector. -/
def printed (input : List UInt8) (l : List UInt16) : List String :=
  (input.map fun byte => toString byte.toUInt16).intersperse " " ++
    "\n" :: l.flatMap fun n => [toString n, "\n"]

/-- What the program does on `input`: no run is longer than a bound, every run goes on until all
processes have ended, the counters of the slaves that have ended are those of a permutation of `1..n`,
each of these slaves has received one `tag_z` message, and the vector that is printed is the input
sorted. -/
structure SortsInput (input : List UInt8) (c : Nat → UInt16) (l : List UInt16) : Prop where
  counters_perm : ((List.range' 1 input.length).map fun id => (c id).toNat).Perm
    (List.range' 1 input.length)
  perm : l.Perm (input.map UInt8.toUInt16)
  sorted : l.Pairwise (· ≤ ·)
  not_stuck {s : Config Tags UInt16 String Vars}
    (h : (es (some input) (input.length + 1)).Reachable s) :
    (∀ p < input.length + 1, (s.proc p).IsDone) ∨
      ∃ mv s', (es (some input) (input.length + 1)).step s mv = some s'
  bounded : ∃ bound, ∀ l s, (es (some input) (input.length + 1)).runs
    (es (some input) (input.length + 1)).init l = some s → l.length ≤ bound
  completes {s : Config Tags UInt16 String Vars}
    (h : (es (some input) (input.length + 1)).Reachable s) :
    ∃ l s', (es (some input) (input.length + 1)).runs s l = some s' ∧
      ∀ p < input.length + 1, (s'.proc p).IsDone
  slave_done {s : Config Tags UInt16 String Vars} {id : Nat} {v : Vars}
    (h : (es (some input) (input.length + 1)).Reachable s) (h1 : 1 ≤ id)
    (hn : id ≤ input.length) (hv : s.proc id = .done v) :
    v.c = c id ∧ (s.received id).countP (fun r => r.1.tag = tag_z) = 1
  master_done {s : Config Tags UInt16 String Vars} {v : Vars}
    (h : (es (some input) (input.length + 1)).Reachable s) (hv : s.proc 0 = .done v) :
    s.output 0 = printed input l

theorem map_number (input : List UInt8) :
    (List.range input.length).map (fun k => number input (k + 1)) = input.map UInt8.toUInt16 := by
  refine List.ext_getElem (by simp) fun i hi hi' => ?_
  have hi : i < input.length := by simpa using hi
  simp [number, byte, hi]

theorem slaves_eq : slaves input = (List.range input.length).map (· + 1) := by
  rw [slaves, List.range'_eq_map_range]
  simp [Nat.add_comm]

theorem sorted_perm : ((List.range input.length).map fun k => sorted input (k + 1)).Perm
    (input.map UInt8.toUInt16) := by
  have hp := (map_unrank_perm nodup_slaves (key_inj input)).map (number input)
  rw [length_slaves, List.map_map] at hp
  refine hp.trans ?_
  rw [slaves_eq, List.map_map, ← map_number input]
  rfl

theorem sorted_pairwise :
    ((List.range input.length).map fun k => sorted input (k + 1)).Pairwise (· ≤ ·) := by
  rw [List.pairwise_map]
  refine List.pairwise_lt_range.imp_of_mem fun hi hj hlt => ?_
  rw [List.mem_range] at hj
  have hkey := key_unrank_lt nodup_slaves (key_inj input) hlt
    (by rwa [length_slaves])
  rw [key_lt_key] at hkey
  rw [UInt16.le_iff_toNat_le, sorted, sorted, number, number, UInt8.toNat_toUInt16,
    UInt8.toNat_toUInt16]
  exact hkey.elim le_of_lt fun h => h.1.le

theorem place_perm : ((slaves input).map (place input)).Perm (slaves input) := by
  have hp := (map_rank_perm nodup_slaves (key_inj input)).map (· + 1)
  rwa [List.map_map, length_slaves, ← slaves_eq] at hp

theorem intersperse_range (x : Nat → String) (n : Nat) :
    ((List.range n).flatMap fun k => (if k + 1 ≠ 1 then [" "] else []) ++ [x k]) =
      ((List.range n).map x).intersperse " " := by
  have hcons (a : String) (l : List String) :
      (a :: l).intersperse " " = a :: l.flatMap fun b => [" ", b] := by
    induction l generalizing a with
    | nil => rfl
    | cons b l ih => simp [ih b]
  cases n with
  | zero => rfl
  | succ n => simp [List.range_succ_eq_map, hcons, List.flatMap_map]

theorem prints_master : prints (masterEvents input) =
    printed input ((List.range input.length).map fun k => sorted input (k + 1)) := by
  have hin : (List.range input.length).flatMap (fun k => prints (inEvents input k)) =
      (input.map fun byte => toString byte.toUInt16).intersperse " " := by
    have hmap := congrArg (List.map toString) (map_number input)
    rw [List.map_map, List.map_map] at hmap
    rw [← Function.comp_def toString, ← hmap, ← intersperse_range]
    simp [inEvents]
  simp [masterEvents, collectEvents, printEvents, printed, hin, List.flatMap_map]

theorem receipts_slave :
    (receipts (slaveEvents input id)).countP (fun r => r.1.tag = tag_z) = 1 := by
  simp [slaveEvents, shiftEvents, outEvents, List.countP_flatMap, Function.comp_def]

/-- The program sorts its input, whatever the order of the steps. -/
theorem es_sorts (h16 : input.length ≤ 65535) : ∃ c l, SortsInput input c l := by
  refine ⟨fun id => UInt16.ofNat (place input id),
    (List.range input.length).map fun k => sorted input (k + 1), ?_, sorted_perm, sorted_pairwise,
    (schedule input h16).not_stuck, ⟨_, fun _ _ => (schedule input h16).length_le⟩,
    (schedule input h16).completes, fun {s id v} h h1 hn hv => ?_, fun {s v} h hv => ?_⟩
  · have hc : (slaves input).map (fun id => (UInt16.ofNat (place input id)).toNat) =
        (slaves input).map (place input) :=
      List.map_congr_left fun id hid => toNat_place h16 hid
    exact hc ▸ place_perm
  · have hid : id ∈ slaves input := mem_slaves.mpr ⟨h1, hn⟩
    obtain ⟨hres, -, hrec⟩ := (schedule input h16).of_done h (Nat.lt_succ_of_le hn) (hv ▸ trivial)
    have hvars : vars input id = v := Proc.done.inj (hres.symm.trans hv)
    have hne : id ≠ 0 := by omega
    refine ⟨by rw [← hvars, vars, if_neg hne], ?_⟩
    rw [hrec]
    exact (congrArg (fun l => (receipts l).countP _) (events_slave hid)).trans receipts_slave
  · obtain ⟨-, hout, -⟩ := (schedule input h16).of_done h (Nat.succ_pos _) (hv ▸ trivial)
    exact hout.trans prints_master

theorem es_sorts_duplicates : ∃ c l, SortsInput [3, 1, 3] c l := es_sorts (by decide)

end EnumerationSort
