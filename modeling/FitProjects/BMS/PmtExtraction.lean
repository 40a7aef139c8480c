import FitProjects.BMS.PatExtraction
import Mathlib.Data.Finset.Union

/-! # What `parsePMT` takes from a section

The loop of `parsePMT` goes over the elementary streams and then on over the check sum and what
follows it, until its index has passed `section_length`, which counts nine bytes, the descriptors of
the program and the check sum besides the streams. After an adaptation field the pointer field is
taken for the table id, and nothing is parsed. -/

namespace Demultiplexor

variable {d : Demultiplexor} {payload : Nat → UInt8} {pids : List UInt16} {prog : UInt16}

/-- The elementary PID at place `i`. -/
def pidAt (payload : Nat → UInt8) (i : Nat) : UInt16 :=
  let programInfoLength := (length12 (payload 10) (payload 11)).toNat
  let start := (programInfoLength + 12) % 256 + i
  word16 (payload (start + 1) &&& 0x1F) (payload (start + 2))

def addStream (prog : UInt16) (d : Demultiplexor) (pid : UInt16) : Demultiplexor :=
  if pid ≠ 0x1FFF then
    { d with programElementary :=
        Function.update d.programElementary prog (insert pid (d.programElementary prog)) }
  else d

/-- The places that the loop looks at from `i` on, and their PIDs. -/
def pidsFrom (payload : Nat → UInt8) (i n : Nat) : List UInt16 :=
  (List.range n).map fun k => pidAt payload ((nextStream payload)^[k] i)

/-- The first index of the loop. -/
def pmtStart (payload : Nat → UInt8) : UInt8 :=
  UInt8.ofNat ((length12 (payload 10) (payload 11)).toNat + 12)

/-! ## The loop -/

theorem pmtEntry_fst (i : UInt8) : (pmtEntry payload prog (pmtStart payload) (d, i)).1 =
    addStream prog d (pidAt payload i.toNat) := by
  have hstart : (pmtStart payload).toNat =
      ((length12 (payload 10) (payload 11)).toNat + 12) % 256 := UInt8.toNat_ofNat'
  simp only [pmtEntry, pidAt, addStream, hstart]
  rfl

theorem pidsFrom_succ (i n : Nat) : pidsFrom payload i (n + 1) =
    pidsFrom payload i n ++ [pidAt payload ((nextStream payload)^[n] i)] := by
  rw [pidsFrom, List.range_succ, List.map_append]
  rfl

theorem iterate_pmtEntry (n : Nat) : (pmtEntry payload prog (pmtStart payload))^[n] (d, 0) =
    ((pidsFrom payload 0 n).foldl (addStream prog) d, (nextStream8 payload)^[n] 0) := by
  induction n with
  | zero => rfl
  | succ n ih =>
    rw [Function.iterate_succ_apply', ih, pidsFrom_succ, List.foldl_append,
      Function.iterate_succ_apply']
    refine Prod.ext ?_ (pmtEntry_snd ..)
    rw [pmtEntry_fst, toNat_iterate_nextStream8]
    rfl

/-- What `parsePMT` makes of a packet, if it ends. -/
theorem parsePMT_iff {P : Demultiplexor → Prop} (htable : payload 0 = TS_TABLE_PMT)
    (hprog : word16 (payload 3) (payload 4) = prog) :
    (∃ fuel r, parsePMT fuel d payload = some r ∧ P r.2) ↔
      ∃ n, (∀ k < n, (nextStream payload)^[k] 0 < sectionLength payload) ∧
        sectionLength payload ≤ (nextStream payload)^[n] 0 ∧
        P ((pidsFrom payload 0 n).foldl (addStream prog) d) := by
  have hloop : (∃ fuel r, parsePMT fuel d payload = some r ∧ P r.2) ↔
      ∃ fuel s, loop (fun s : Demultiplexor × UInt8 => below (sectionLength payload) s.2)
          (fun s => some (pmtEntry payload prog (pmtStart payload) s)) fuel (d, 0) = some s ∧
        P s.1 := by
    simp only [parsePMT, htable, hprog, ne_eq, not_true, if_false, Option.map_eq_some_iff]
    constructor
    · rintro ⟨fuel, r, ⟨s, hs, rfl⟩, hP⟩
      exact ⟨fuel, s, hs, hP⟩
    · rintro ⟨fuel, s, hs, hP⟩
      exact ⟨fuel, _, ⟨s, hs, rfl⟩, hP⟩
  refine hloop.trans ((loop.exists_iff (P := fun s : Demultiplexor × UInt8 => P s.1)).trans ?_)
  simp only [iterate_pmtEntry, below, toNat_iterate_nextStream8, decide_eq_true_eq,
    decide_eq_false_iff_not, Nat.not_lt]

/-! ## The streams -/

theorem foldl_addStream : (pids.foldl (addStream prog) d).programElementary =
    Function.update d.programElementary prog
      (d.programElementary prog ∪ pids.toFinset.filter (· ≠ 0x1FFF)) := by
  induction pids generalizing d with
  | nil => simp
  | cons pid pids ih =>
    rw [List.foldl_cons, ih, addStream]
    split_ifs with hpid
    · simp only [Function.update_idem, Function.update_self, List.toFinset_cons,
        Finset.filter_insert, if_pos hpid, Finset.insert_union, Finset.union_insert]
    · simp only [List.toFinset_cons, Finset.filter_insert, if_neg hpid]

/-- The loop finds a stream where it stands, and goes on behind it. -/
theorem next_of_stands {e : ElementaryStream} {pil i : Nat}
    (hpil : (length12 (payload 10) (payload 11)).toNat = pil) (hstart : pil + 12 < 256)
    (h : Stands payload (pil + 12 + i) e.bytes) (hroom : i + e.bytes.length < 256) :
    nextStream payload i = i + e.bytes.length ∧ pidAt payload i = e.pid := by
  have hlength : e.bytes.length = e.info.length + 5 := by
    rw [ElementaryStream.bytes, List.length_append, Nat.add_comm]
    rfl
  have hnat : (UInt16.ofNat e.info.length).toNat = e.info.length :=
    UInt16.toNat_ofNat_of_lt (by rw [UInt16.size]; omega)
  have hinfo : length12 ((0xF0 : UInt8) ||| (UInt16.ofNat e.info.length >>> 8).toUInt8)
      (UInt16.ofNat e.info.length).toUInt8 = UInt16.ofNat e.info.length :=
    length12_flagged (by decide) (by omega)
  rw [ElementaryStream.bytes, stands_append, stands_append, stands_cons, stands_flagged,
    stands_flagged] at h
  obtain ⟨⟨⟨-, hpidHigh, hpidLow⟩, hinfoHigh, hinfoLow⟩, -⟩ := h
  have hmod : (pil + 12) % 256 = pil + 12 := Nat.mod_eq_of_lt hstart
  constructor
  · have hthree : payload (pil + 12 + i + 3) = _ := hinfoHigh
    have hfour : payload (pil + 12 + i + 4) = _ := hinfoLow
    simp only [nextStream, hpil, hmod, hthree, hfour, hinfo, hnat]
    omega
  · rw [pidAt, hpil, hmod, hpidHigh, hpidLow, word16_pid e.pid_lt]

theorem pidsFrom_succ' (i n : Nat) : pidsFrom payload i (n + 1) =
    pidAt payload i :: pidsFrom payload (nextStream payload i) n := by
  rw [pidsFrom, List.range_succ_eq_map, List.map_cons, List.map_map]
  rfl

/-- The loop goes over the streams from a place on. -/
theorem iterate_of_stands {streams : List ElementaryStream} {pil i : Nat}
    (hpil : (length12 (payload 10) (payload 11)).toNat = pil) (hstart : pil + 12 < 256)
    (h : Stands payload (pil + 12 + i) (streams.flatMap ElementaryStream.bytes))
    (hroom : i + (streams.flatMap ElementaryStream.bytes).length < 256) :
    (nextStream payload)^[streams.length] i =
        i + (streams.flatMap ElementaryStream.bytes).length ∧
      pidsFrom payload i streams.length = streams.map (·.pid) ∧
      ∀ k < streams.length, (nextStream payload)^[k] i <
        i + (streams.flatMap ElementaryStream.bytes).length := by
  induction streams generalizing i with
  | nil => exact ⟨rfl, rfl, fun k hk => absurd hk (Nat.not_lt_zero k)⟩
  | cons e streams ih =>
    rw [List.flatMap_cons, List.length_append] at hroom ⊢
    rw [List.flatMap_cons, stands_append, Nat.add_assoc (pil + 12)] at h
    obtain ⟨hnext, hpid⟩ := next_of_stands hpil hstart h.1 (by omega)
    obtain ⟨hlast, hpids, hbefore⟩ := ih h.2 (by omega)
    have hpos : 0 < e.bytes.length := Nat.succ_pos _
    refine ⟨?_, ?_, fun k hk => ?_⟩
    · rw [List.length_cons, Function.iterate_succ_apply, hnext, hlast, Nat.add_assoc]
    · rw [List.length_cons, pidsFrom_succ', hnext, hpid, hpids, List.map_cons]
    · cases k with
      | zero =>
        rw [Function.iterate_zero_apply]
        omega
      | succ k =>
        have hlt := hbefore k (Nat.lt_of_succ_lt_succ hk)
        rw [Function.iterate_succ_apply, hnext]
        omega

/-! ## The two kinds of packets -/

variable {s : PmtSection} {behind : Nat → UInt8}

theorem stands_pmtSection (h : Stands payload 0 s.bytes) :
    payload 0 = TS_TABLE_PMT ∧ Stands payload 1 (flagged 0xB0 (UInt16.ofNat s.length)) ∧
      Stands payload 3 (flagged 0 s.programNumber) ∧
      Stands payload 10 (flagged 0xF0 (UInt16.ofNat s.info.length)) ∧
      Stands payload (s.info.length + 12) s.streamLoop := by
  have hbody := stands_withCrc h
  rw [stands_append, stands_append, stands_append, stands_append, stands_append, stands_append,
    stands_cons] at hbody
  obtain ⟨⟨⟨⟨⟨⟨⟨htable, hlength⟩, hprog⟩, -⟩, -⟩, hinfo⟩, -⟩, hstreams⟩ := hbody
  refine ⟨htable, hlength, hprog, hinfo, ?_⟩
  convert hstreams using 1
  rw [List.length_append, Nat.zero_add, Nat.add_comm]
  rfl

theorem length_pmtSection (s : PmtSection) : s.bytes.length = 3 + s.length := by
  rw [PmtSection.bytes, length_withCrc, PmtSection.length]
  simp only [List.length_append, List.length_cons, length_flagged, List.length_nil]
  omega

/-- The packet as the loop of `parsePMT` finds it. -/
structure PmtRead (s : PmtSection) (payload : Nat → UInt8) : Prop where
  table : payload 0 = TS_TABLE_PMT
  length : sectionLength payload = s.length
  prog : word16 (payload 3) (payload 4) = s.programNumber
  last : (nextStream payload)^[s.streams.length] 0 = s.streamLoop.length
  pids : pidsFrom payload 0 s.streams.length = s.streams.map (·.pid)
  before : ∀ k < s.streams.length, (nextStream payload)^[k] 0 < s.streamLoop.length

theorem pmtRead_of_none (p : SectionPacket s.bytes) (h : p.adaptation = none) :
    PmtRead s (p.visible behind) := by
  obtain ⟨htable, hlength, hprog, hinfo, hstreams⟩ :=
    stands_pmtSection (p.stands_section behind h)
  have hshort := p.length_lt
  rw [length_pmtSection, PmtSection.length] at hshort
  have hnat : (UInt16.ofNat s.length).toNat = s.length :=
    UInt16.toNat_ofNat_of_lt (by rw [UInt16.size, PmtSection.length]; omega)
  have hinfoNat : (UInt16.ofNat s.info.length).toNat = s.info.length :=
    UInt16.toNat_ofNat_of_lt (by rw [UInt16.size]; omega)
  have hlen := sectionLength_of_stands hlength (by rw [hnat, PmtSection.length]; omega)
  rw [stands_flagged] at hprog hinfo
  have hpil : (length12 (p.visible behind 10) (p.visible behind 11)).toNat = s.info.length := by
    rw [hinfo.1, hinfo.2, length12_flagged (by decide) (by omega), hinfoNat]
  obtain ⟨hlast, hpids, hbefore⟩ :=
    iterate_of_stands (i := 0) hpil (by omega) hstreams (by rw [← PmtSection.streamLoop]; omega)
  rw [Nat.zero_add] at hlast hbefore
  refine ⟨htable, hlen.trans hnat, ?_, hlast, hpids, hbefore⟩
  rw [hprog.1, hprog.2, UInt8.zero_or, word16_high_low]

/-- `parsePMT` adds the elementary PIDs to the program, but for the one of stuffing. -/
def PmtExtracted (d : Demultiplexor) (payload : Nat → UInt8) (prog : UInt16)
    (pids : List UInt16) : Prop :=
  ∃ fuel r, parsePMT fuel d payload = some r ∧
    r.2.programElementary = Function.update d.programElementary prog
      (d.programElementary prog ∪ pids.toFinset.filter (· ≠ 0x1FFF))

/-- Elementary PIDs that make no difference to the program. -/
def Known (d : Demultiplexor) (prog : UInt16) (pids : List UInt16) (pid : UInt16) : Prop :=
  pid = 0x1FFF ∨ pid ∈ d.programElementary prog ∨ pid ∈ pids

/-- When `parsePMT` gets a section right: from the check sum on the loop comes to an end, and finds
nothing there that is not known; behind an adaptation field, all of the PIDs are known before. -/
def PmtFits (d : Demultiplexor) (p : SectionPacket s.bytes) (behind : Nat → UInt8) : Prop :=
  match p.adaptation with
  | none =>
    let next := nextStream (p.visible behind)
    ∃ n, (∀ k < n, next^[k] s.streamLoop.length < s.length) ∧
      s.length ≤ next^[n] s.streamLoop.length ∧
      ∀ pid ∈ pidsFrom (p.visible behind) s.streamLoop.length n,
        Known d s.programNumber (s.streams.map (·.pid)) pid
  | some _ => ∀ e ∈ s.streams, Known d s.programNumber [] e.pid

theorem pidsFrom_add (i m n : Nat) : pidsFrom payload i (m + n) =
    pidsFrom payload i m ++ pidsFrom payload ((nextStream payload)^[m] i) n := by
  induction n with
  | zero => simp [pidsFrom]
  | succ n ih =>
    rw [← Nat.add_assoc, pidsFrom_succ, pidsFrom_succ, ih, List.append_assoc, Nat.add_comm m,
      Function.iterate_add_apply]

/-- More PIDs make no difference when they are known. -/
theorem update_append_iff (extra : List UInt16) :
    Function.update d.programElementary prog
          (d.programElementary prog ∪ (pids ++ extra).toFinset.filter (· ≠ 0x1FFF)) =
        Function.update d.programElementary prog
          (d.programElementary prog ∪ pids.toFinset.filter (· ≠ 0x1FFF)) ↔
      ∀ pid ∈ extra, Known d prog pids pid := by
  rw [(Function.update_injective _ _).eq_iff, List.toFinset_append, Finset.filter_union,
    ← Finset.union_assoc, Finset.union_eq_left]
  constructor
  · intro h pid hpid
    by_cases hstuffing : pid = 0x1FFF
    · exact .inl hstuffing
    · have hmem := h (Finset.mem_filter.mpr ⟨List.mem_toFinset.mpr hpid, hstuffing⟩)
      simp only [Finset.mem_union, Finset.mem_filter, List.mem_toFinset] at hmem
      exact .inr (hmem.imp_right And.left)
  · intro h pid hpid
    rw [Finset.mem_filter, List.mem_toFinset] at hpid
    have hknown := (h pid hpid.1).resolve_left hpid.2
    simp only [Finset.mem_union, Finset.mem_filter, List.mem_toFinset]
    exact hknown.imp_right fun hmem => ⟨hmem, hpid.2⟩

theorem pmtExtracted_iff_of_read (h : PmtRead s payload) :
    PmtExtracted d payload s.programNumber (s.streams.map (·.pid)) ↔
      ∃ n, (∀ k < n, (nextStream payload)^[k] s.streamLoop.length < s.length) ∧
        s.length ≤ (nextStream payload)^[n] s.streamLoop.length ∧
        ∀ pid ∈ pidsFrom payload s.streamLoop.length n,
          Known d s.programNumber (s.streams.map (·.pid)) pid := by
  refine (parsePMT_iff (P := fun d' => d'.programElementary = Function.update d.programElementary
    s.programNumber (d.programElementary s.programNumber ∪
      (s.streams.map (·.pid)).toFinset.filter (· ≠ 0x1FFF))) h.table h.prog).trans ?_
  have hshort : s.streamLoop.length < s.length := by
    rw [PmtSection.length]
    omega
  have hnext : ∀ n, (nextStream payload)^[n + s.streams.length] 0 =
      (nextStream payload)^[n] s.streamLoop.length := by
    intro n
    rw [Function.iterate_add_apply, h.last]
  have hpids : ∀ n, pidsFrom payload 0 (n + s.streams.length) =
      s.streams.map (·.pid) ++ pidsFrom payload s.streamLoop.length n := by
    intro n
    rw [Nat.add_comm, pidsFrom_add, h.pids, h.last]
  rw [h.length]
  constructor
  · rintro ⟨n, hbefore, hend, hP⟩
    have hle : s.streams.length ≤ n := by
      by_contra hlt
      have := h.before n (by omega)
      omega
    obtain ⟨m, rfl⟩ := Nat.exists_eq_add_of_le' hle
    rw [foldl_addStream, hpids, update_append_iff] at hP
    rw [hnext] at hend
    refine ⟨m, fun k hk => ?_, hend, hP⟩
    rw [← hnext]
    exact hbefore _ (by omega)
  · rintro ⟨m, hbefore, hend, hknown⟩
    refine ⟨m + s.streams.length, fun k hk => ?_, by rwa [hnext], ?_⟩
    · rcases Nat.lt_or_ge k s.streams.length with hlt | hle
      · exact Nat.lt_trans (h.before k hlt) hshort
      · obtain ⟨j, rfl⟩ := Nat.exists_eq_add_of_le' hle
        rw [hnext]
        exact hbefore j (by omega)
    · rwa [foldl_addStream, hpids, update_append_iff]

/-- Where the table id is another one, nothing is added. -/
theorem pmtExtracted_iff_of_table (h : payload 0 ≠ TS_TABLE_PMT) :
    PmtExtracted d payload prog pids ↔ ∀ pid ∈ pids, Known d prog [] pid := by
  have hparse : ∀ fuel, parsePMT fuel d payload = some (false, d) := fun fuel => by
    rw [parsePMT, if_pos h]
  have hself : Function.update d.programElementary prog
      (d.programElementary prog ∪ ([] : List UInt16).toFinset.filter (· ≠ 0x1FFF)) =
        d.programElementary := by simp
  rw [← update_append_iff, hself, List.nil_append]
  constructor
  · rintro ⟨fuel, r, hr, hP⟩
    rw [hparse, Option.some.injEq] at hr
    rw [← hP, ← hr]
  · exact fun hP => ⟨0, _, hparse 0, hP.symm⟩

theorem pmtExtracted_iff (p : SectionPacket s.bytes) (old : TSPacket) :
    PmtExtracted d ((p.packet old).parse.2.payloadByte behind) s.programNumber
        (s.streams.map (·.pid)) ↔ PmtFits d p behind := by
  rw [p.payloadByte_parse, PmtFits]
  cases h : p.adaptation with
  | none => exact pmtExtracted_iff_of_read (pmtRead_of_none p h)
  | some field =>
    have hpointer := (p.stands_section_of_some behind h).1
    rw [pmtExtracted_iff_of_table (by rw [hpointer]; decide), List.forall_mem_map]

/-- For every packet that carries a section, with or without an adaptation field and whatever stands
behind its payload: when the tables get what the section says, and nothing else. -/
theorem sections_extracted_iff (d : Demultiplexor) (old : TSPacket) (behind : Nat → UInt8) :
    (∀ (s : PatSection) (p : SectionPacket s.bytes),
      PatExtracted d ((p.packet old).parse.2.payloadByte behind) s.programs ↔
        PatFits d p behind) ∧
      ∀ (s : PmtSection) (p : SectionPacket s.bytes),
        PmtExtracted d ((p.packet old).parse.2.payloadByte behind) s.programNumber
          (s.streams.map (·.pid)) ↔ PmtFits d p behind :=
  ⟨fun _ p => patExtracted_iff p old, fun _ p => pmtExtracted_iff p old⟩

/-- One program, with its map at PID 0x100. -/
def onePat : PatSection where
  transportStreamId := 1
  version := 0xC1
  sectionNumber := 0
  lastSectionNumber := 0
  programs := [(1, 0x100)]
  pid_lt := List.forall_mem_singleton.mpr (UInt16.lt_iff_toNat_lt.mpr (by decide))
  nodup := by decide

def onePatPacket : SectionPacket onePat.bytes where
  flags := 0x40
  pidLow := 0
  control := 0x10
  adaptation := none
  stuffing := 167
  payloadStart := by decide
  fieldControl := by decide
  size := by rw [length_patSection]; rfl

/-- The stuffing becomes program 0xFFFF. -/
theorem not_patExtracted_onePat : ¬ PatExtracted init
    ((onePatPacket.packet ⟨[], ⟨0, 0, 0, 0, 0, 0, 0, 0⟩, [], []⟩).parse.2.payloadByte fun _ => 0)
      onePat.programs := by
  rw [patExtracted_iff]
  rintro ⟨-, hoverrun, -⟩
  have hmem : ((0xFFFF, 0x1FFF) : UInt16 × UInt16) ∈ overrun onePatPacket fun _ => 0 :=
    List.mem_map.mpr ⟨4, by decide, by decide +kernel⟩
  have hknown := hoverrun _ hmem
  simp [init, onePat] at hknown

end Demultiplexor
