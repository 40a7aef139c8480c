import FitProjects.BMS.Sections
import FitProjects.BMS.TableLoops

/-! # What `parsePAT` takes from a section

The loop of `parsePAT` runs until its index has passed `section_length`, which counts the five bytes
in front of the programs and the check sum behind them: it reads three entries too many. After an
adaptation field it starts a byte too early, and takes the flags of the section for its length. -/

namespace Demultiplexor

variable {d : Demultiplexor} {payload : Nat → UInt8} {es : List (UInt16 × UInt16)}

/-- The entry at `index`. -/
def entryAt (payload : Nat → UInt8) (index : Nat) : UInt16 × UInt16 :=
  (word16 (payload (index + 8)) (payload (index + 9)),
    word16 (payload (index + 10) &&& 0x1F) (payload (index + 11)))

def addProgram (d : Demultiplexor) (e : UInt16 × UInt16) : Demultiplexor :=
  let d := { d with PAT := insertPAT d.PAT e.1 e.2 }
  if e.1 = 0x00 then { d with NITPid := e.2 } else d

/-- The PID of the network information after some entries. -/
def nitPid (es : List (UInt16 × UInt16)) (nit : UInt16) : UInt16 :=
  es.foldl (fun nit e => if e.1 = 0 then e.2 else nit) nit

/-- The first `n` entries that the loop reads. -/
def patEntries (payload : Nat → UInt8) (n : Nat) : List (UInt16 × UInt16) :=
  (List.range n).map fun k => entryAt payload (4 * k)

/-! ## The loop -/

theorem patEntry_eq (index : UInt8) :
    patEntry payload (d, index) = (addProgram d (entryAt payload index.toNat), index + 4) := rfl

theorem iterate_patEntry (hn : n ≤ 64) : (patEntry payload)^[n] (d, 0) =
    ((patEntries payload n).foldl addProgram d, (· + 4)^[n] 0) := by
  induction n with
  | zero => rfl
  | succ n ih =>
    have hindex : ((· + 4)^[n] (0 : UInt8)).toNat = 4 * n := by
      rw [toNat_iterate_add_four]
      omega
    rw [Function.iterate_succ_apply', ih (by omega), patEntry_eq, hindex, patEntries, patEntries,
      List.range_succ, List.map_append, List.foldl_append, Function.iterate_succ_apply']
    rfl

/-- The number of entries that the loop reads. -/
def patCount (payload : Nat → UInt8) : Nat := (sectionLength payload + 3) / 4

theorem below_iterate (hn : n ≤ 63) :
    below length ((· + 4)^[n] (0 : UInt8)) = decide (4 * n < length) := by
  rw [below, toNat_iterate_add_four, Nat.mod_eq_of_lt (by omega)]

/-- What `parsePAT` makes of a packet, if it ends. -/
theorem parsePAT_iff {P : Demultiplexor → Prop} (htable : payload 0 = TS_TABLE_PAT)
    (hlen : sectionLength payload ≤ 252) :
    (∃ fuel r, parsePAT fuel d payload = some r ∧ P r.2) ↔
      P { (patEntries payload (patCount payload)).foldl addProgram d with
        analyzedPAT := true } := by
  have hcount : patCount payload ≤ 63 := by
    rw [patCount]
    omega
  have hloop : (∃ fuel r, parsePAT fuel d payload = some r ∧ P r.2) ↔
      ∃ fuel s, loop (fun s : Demultiplexor × UInt8 => below (sectionLength payload) s.2)
          (fun s => some (patEntry payload s)) fuel (d, 0) = some s ∧
        P { s.1 with analyzedPAT := true } := by
    simp only [parsePAT, htable, ne_eq, not_true, if_false, Option.map_eq_some_iff]
    constructor
    · rintro ⟨fuel, r, ⟨s, hs, rfl⟩, hP⟩
      exact ⟨fuel, s, hs, hP⟩
    · rintro ⟨fuel, s, hs, hP⟩
      exact ⟨fuel, _, ⟨s, hs, rfl⟩, hP⟩
  have hguard : ∀ k ≤ 63,
      below (sectionLength payload) ((patEntry payload)^[k] (d, 0)).2 =
        decide (k < patCount payload) := by
    intro k hk
    rw [iterate_patEntry (by omega), below_iterate hk, decide_eq_decide, patCount]
    omega
  refine hloop.trans ((loop.exists_iff (P := fun s : Demultiplexor × UInt8 =>
    P { s.1 with analyzedPAT := true })).trans ?_)
  constructor
  · rintro ⟨n, hbefore, hend, hP⟩
    have hn : n = patCount payload := by
      rcases Nat.lt_trichotomy n (patCount payload) with hlt | heq | hgt
      · simp [hguard n (by omega), hlt] at hend
      · exact heq
      · have hfirst := hbefore _ hgt
        simp [hguard _ hcount] at hfirst
    rwa [hn, iterate_patEntry (by omega)] at hP
  · refine fun hP => ⟨patCount payload, fun k hk => ?_, ?_, ?_⟩
    · rw [hguard k (by omega), decide_eq_true hk]
    · rw [hguard _ hcount, decide_eq_false (Nat.lt_irrefl _)]
    · rwa [iterate_patEntry (by omega)]

/-! ## The programs -/

theorem foldl_addProgram_PAT (n : UInt16) :
    (es.foldl addProgram d).PAT n = (d.PAT n).or (es.lookup n) := by
  induction es generalizing d with
  | nil => simp
  | cons e es ih =>
    have hfirst : (addProgram d e).PAT n = insertPAT d.PAT e.1 e.2 n := by
      rw [addProgram]
      split <;> rfl
    rw [List.foldl_cons, ih, hfirst, insertPAT, List.lookup_cons]
    by_cases hn : n = e.1
    · simp [hn]
    · have hne : (n == e.1) = false := beq_false_of_ne hn
      simp [hn, hne]

theorem foldl_addProgram_NITPid : (es.foldl addProgram d).NITPid = nitPid es d.NITPid := by
  induction es generalizing d with
  | nil => rfl
  | cons e es ih =>
    have hfirst : (addProgram d e).NITPid = if e.1 = 0 then e.2 else d.NITPid := by
      rw [addProgram]
      split <;> rfl
    rw [List.foldl_cons, ih, hfirst]
    rfl

theorem nitPid_append (es es' : List (UInt16 × UInt16)) (nit : UInt16) :
    nitPid (es ++ es') nit = nitPid es' (nitPid es nit) := List.foldl_append

/-- Where program 0 stands once at most, its entry decides. -/
theorem nitPid_of_nodup (hnodup : (es.map Prod.fst).Nodup) (nit : UInt16) :
    nitPid es nit = (es.lookup 0).getD nit := by
  induction es generalizing nit with
  | nil => rfl
  | cons e es ih =>
    rw [List.map_cons, List.nodup_cons] at hnodup
    have hcons : nitPid (e :: es) nit = nitPid es (if e.1 = 0 then e.2 else nit) := rfl
    rw [hcons, ih hnodup.2, List.lookup_cons]
    by_cases hzero : e.1 = 0
    · have hnone : es.lookup 0 = none := by
        rw [List.lookup_eq_none_iff]
        intro p hp
        have hne : p.1 ≠ 0 := fun h => hnodup.1 (hzero ▸ h ▸ List.mem_map_of_mem hp)
        simpa using Ne.symm hne
      simp [hzero, hnone]
    · have hne : ((0 : UInt16) == e.1) = false := beq_false_of_ne (Ne.symm hzero)
      simp [hzero, hne]

/-- `parsePAT` adds the programs, and takes the PID of program 0 where there is one. -/
def PatExtracted (d : Demultiplexor) (payload : Nat → UInt8) (programs : List (UInt16 × UInt16)) :
    Prop :=
  ∃ fuel r, parsePAT fuel d payload = some r ∧
    (∀ n pid, r.2.PAT n = some pid ↔ d.PAT n = some pid ∨ (n, pid) ∈ programs) ∧
    r.2.NITPid = (programs.lookup 0).getD d.NITPid

theorem lookup_eq_some_iff_mem (hnodup : (es.map Prod.fst).Nodup) {n pid : UInt16} :
    es.lookup n = some pid ↔ (n, pid) ∈ es := by
  induction es with
  | nil => simp
  | cons e es ih =>
    obtain ⟨m, q⟩ := e
    rw [List.map_cons, List.nodup_cons] at hnodup
    rw [List.lookup_cons, List.mem_cons, Prod.mk.injEq]
    by_cases hn : n = m
    · subst hn
      have hout : (n, pid) ∉ es := fun h => hnodup.1 (List.mem_map.mpr ⟨_, h, rfl⟩)
      simp [hout, eq_comm]
    · have hne : (n == m) = false := beq_false_of_ne hn
      simp [hne, hn, ih hnodup.2]

/-- Reading `read` instead of the programs makes no difference to what is in the table. -/
theorem insert_all_iff (hnodup : (es.map Prod.fst).Nodup) (read : List (UInt16 × UInt16)) :
    (∀ n pid, (d.PAT n).or (read.lookup n) = some pid ↔ d.PAT n = some pid ∨ (n, pid) ∈ es) ↔
      (∀ e ∈ es, d.PAT e.1 = none ∨ d.PAT e.1 = some e.2) ∧
        ∀ n, d.PAT n = none → read.lookup n = es.lookup n := by
  simp only [← lookup_eq_some_iff_mem hnodup]
  constructor
  · refine fun h => ⟨fun e he => ?_, fun n hn => ?_⟩
    · have hmem := (h e.1 e.2).mpr (.inr he)
      cases hn : d.PAT e.1 with
      | none => exact .inl rfl
      | some q => exact .inr (by simpa [hn] using hmem)
    · refine Option.ext fun pid => ?_
      simpa [hn] using h n pid
  · rintro ⟨hprograms, hread⟩ n pid
    cases hn : d.PAT n with
    | none => simp [hread n hn]
    | some q =>
      simp only [Option.some_or, Option.some.injEq]
      refine (or_iff_left_of_imp fun hmem => ?_).symm
      have hq := hprograms (n, pid) hmem
      simpa [hn] using hq

theorem lookup_append_eq_iff (extra : List (UInt16 × UInt16)) :
    (∀ n, d.PAT n = none → (es ++ extra).lookup n = es.lookup n) ↔
      ∀ e ∈ extra, (d.PAT e.1).isSome ∨ e.1 ∈ es.map Prod.fst := by
  have hkeys : ∀ n, es.lookup n = none ↔ n ∉ es.map Prod.fst := by
    intro n
    simp only [List.lookup_eq_none_iff, bne_iff_ne, List.mem_map, not_exists, not_and]
    exact forall₂_congr fun e _ => ne_comm
  constructor
  · intro h e he
    by_contra hnew
    rw [not_or, Option.not_isSome_iff_eq_none, ← hkeys] at hnew
    have hnone := h e.1 hnew.1
    rw [List.lookup_append, hnew.2, Option.none_or, List.lookup_eq_none_iff] at hnone
    simpa using hnone e he
  · intro h n hn
    rw [List.lookup_append]
    cases hlookup : es.lookup n with
    | some pid => rfl
    | none =>
      rw [Option.none_or, List.lookup_eq_none_iff]
      intro e he
      have hne : e.1 ≠ n := by
        rintro rfl
        rcases h e he with hsome | hmem
        · simp [hn] at hsome
        · exact (hkeys e.1).mp hlookup hmem
      simpa using Ne.symm hne

/-! ## The bytes of a section -/

theorem entryAt_of_stands {e : UInt16 × UInt16} {i : Nat}
    (h : Stands payload (i + 8) (PatSection.entry e)) (hpid : e.2 < 0x2000) :
    entryAt payload i = e := by
  rw [PatSection.entry, stands_append, stands_flagged, stands_flagged, length_flagged] at h
  obtain ⟨⟨hhigh, hlow⟩, hpidHigh, hpidLow⟩ := h
  rw [entryAt, hhigh, hlow, hpidHigh, hpidLow, UInt8.zero_or, word16_high_low, word16_pid hpid]

theorem map_entryAt_of_stands {i : Nat} (h : Stands payload (i + 8) (es.flatMap PatSection.entry))
    (hpid : ∀ e ∈ es, e.2 < 0x2000) :
    (List.range es.length).map (fun k => entryAt payload (i + 4 * k)) = es := by
  induction es generalizing i with
  | nil => rfl
  | cons e es ih =>
    rw [List.flatMap_cons, stands_append] at h
    rw [List.forall_mem_cons] at hpid
    have hrest : ∀ k, entryAt payload (i + 4 * (k + 1)) = entryAt payload (i + 4 + 4 * k) := by
      intro k
      congr 1
      omega
    have hlen : (PatSection.entry e).length = 4 := rfl
    rw [hlen, Nat.add_right_comm] at h
    rw [List.length_cons, List.range_succ_eq_map, List.map_cons, List.map_map]
    simp only [Function.comp_def, Nat.succ_eq_add_one, hrest, Nat.mul_zero, Nat.add_zero]
    rw [entryAt_of_stands h.1 hpid.1, ih h.2 hpid.2]

variable {s : PatSection} {start : Nat}

theorem stands_patSection (h : Stands payload start s.bytes) :
    payload start = TS_TABLE_PAT ∧
      Stands payload (start + 1) (flagged 0xB0 (UInt16.ofNat s.length)) ∧
      Stands payload (start + 8) (s.programs.flatMap PatSection.entry) := by
  have hbody := stands_withCrc h
  rw [stands_append] at hbody
  obtain ⟨hhead, hprograms⟩ := hbody
  rw [stands_append, stands_append, stands_cons] at hhead
  exact ⟨hhead.1.1.1, hhead.1.1.2, hprograms⟩

theorem length_patSection (s : PatSection) : s.bytes.length = 3 + s.length := by
  have hentries : (s.programs.flatMap PatSection.entry).length = 4 * s.programs.length := by
    rw [List.length_flatMap]
    simp [PatSection.entry, Nat.mul_comm]
  rw [PatSection.bytes, length_withCrc, List.length_append, hentries, PatSection.length]
  simp only [List.length_append, List.length_cons, length_flagged, List.length_nil]
  omega

/-! ## The two kinds of packets -/

variable {behind : Nat → UInt8}

/-- The three entries that are read behind the programs: the check sum, and what follows it. -/
def overrun (p : SectionPacket s.bytes) (behind : Nat → UInt8) : List (UInt16 × UInt16) :=
  [0, 4, 8].map fun k => entryAt (p.visible behind) (4 * s.programs.length + k)

/-- The 44 entries that are read behind an adaptation field, from a byte too early on. -/
def shifted (p : SectionPacket s.bytes) (behind : Nat → UInt8) : List (UInt16 × UInt16) :=
  patEntries (p.visible behind) 44

theorem sectionLength_of_stands (h : Stands payload 1 (flagged 0xB0 n)) (hn : n.toNat < 4096) :
    sectionLength payload = n.toNat := by
  rw [stands_flagged] at h
  rw [sectionLength, h.1, h.2, length12_flagged (by decide) hn]

theorem patEntries_add_three (n : Nat) : patEntries payload (n + 3) =
    patEntries payload n ++ [0, 4, 8].map fun k => entryAt payload (4 * n + k) := by
  simp only [patEntries, List.range_succ, List.map_append, List.map_cons, List.map_nil,
    List.append_assoc, List.cons_append, List.nil_append, Nat.mul_add, Nat.add_zero, Nat.mul_one,
    Nat.reduceMul]

/-- Without an adaptation field, three entries too many are read. -/
theorem patRead_of_none (p : SectionPacket s.bytes) (behind : Nat → UInt8)
    (h : p.adaptation = none) :
    p.visible behind 0 = TS_TABLE_PAT ∧ sectionLength (p.visible behind) ≤ 252 ∧
      patEntries (p.visible behind) (patCount (p.visible behind)) =
        s.programs ++ overrun p behind := by
  obtain ⟨htable, hlength, hprograms⟩ := stands_patSection (p.stands_section behind h)
  have hshort := p.length_lt
  rw [length_patSection] at hshort
  have hnat : (UInt16.ofNat s.length).toNat = s.length :=
    UInt16.toNat_ofNat_of_lt (by rw [UInt16.size]; omega)
  have hlen := sectionLength_of_stands hlength (by omega)
  rw [hnat] at hlen
  have hcount : patCount (p.visible behind) = s.programs.length + 3 := by
    rw [patCount, hlen, PatSection.length]
    omega
  have hread : patEntries (p.visible behind) s.programs.length = s.programs := by
    have hmap := map_entryAt_of_stands (i := 0) hprograms s.pid_lt
    simpa only [Nat.zero_add, patEntries] using hmap
  refine ⟨htable, by omega, ?_⟩
  rw [hcount, patEntries_add_three, hread, overrun]

/-- Behind an adaptation field the table id and the flags are taken for the length. -/
theorem patRead_of_some (p : SectionPacket s.bytes) (behind : Nat → UInt8)
    (h : p.adaptation = some field) :
    p.visible behind 0 = TS_TABLE_PAT ∧ sectionLength (p.visible behind) ≤ 252 ∧
      patEntries (p.visible behind) (patCount (p.visible behind)) = shifted p behind := by
  obtain ⟨hpointer, hsection⟩ := p.stands_section_of_some behind h
  obtain ⟨htable, hlength, -⟩ := stands_patSection hsection
  have hshort := p.length_lt
  rw [length_patSection] at hshort
  have hnat : (UInt16.ofNat s.length).toNat = s.length :=
    UInt16.toNat_ofNat_of_lt (by rw [UInt16.size]; omega)
  have hhigh : (UInt16.ofNat s.length >>> 8).toUInt8 = 0 := by
    apply UInt8.toNat_inj.mp
    rw [toNat_high, hnat]
    exact Nat.div_eq_of_lt (by omega)
  rw [stands_flagged, hhigh] at hlength
  have hlen : sectionLength (p.visible behind) = 176 := by
    rw [sectionLength, htable, hlength.1]
    rfl
  refine ⟨hpointer, by omega, ?_⟩
  rw [patCount, hlen, shifted]

/-- The PID of the network information as it should be behind the section. -/
def wantedNit (d : Demultiplexor) (s : PatSection) : UInt16 :=
  (s.programs.lookup 0).getD d.NITPid

/-- When `parsePAT` gets a section right: no program is known with another PID, and what is read too
much, or in place of the programs, makes no difference to what is in the table already. -/
def PatFits (d : Demultiplexor) (p : SectionPacket s.bytes) (behind : Nat → UInt8) : Prop :=
  (∀ e ∈ s.programs, d.PAT e.1 = none ∨ d.PAT e.1 = some e.2) ∧
    match p.adaptation with
    | none =>
      (∀ e ∈ overrun p behind, (d.PAT e.1).isSome ∨ e.1 ∈ s.programs.map Prod.fst) ∧
        nitPid (overrun p behind) (wantedNit d s) = wantedNit d s
    | some _ =>
      (∀ n, d.PAT n = none → (shifted p behind).lookup n = s.programs.lookup n) ∧
        nitPid (shifted p behind) d.NITPid = wantedNit d s

theorem patExtracted_iff_read {read : List (UInt16 × UInt16)} (htable : payload 0 = TS_TABLE_PAT)
    (hlen : sectionLength payload ≤ 252)
    (hread : patEntries payload (patCount payload) = read) :
    PatExtracted d payload s.programs ↔
      ((∀ e ∈ s.programs, d.PAT e.1 = none ∨ d.PAT e.1 = some e.2) ∧
        ∀ n, d.PAT n = none → read.lookup n = s.programs.lookup n) ∧
      nitPid read d.NITPid = wantedNit d s := by
  refine (parsePAT_iff (P := fun d' => (∀ n pid, d'.PAT n = some pid ↔
    d.PAT n = some pid ∨ (n, pid) ∈ s.programs) ∧ d'.NITPid = wantedNit d s) htable hlen).trans ?_
  simp only [hread, foldl_addProgram_PAT, foldl_addProgram_NITPid]
  rw [insert_all_iff s.nodup]

theorem patExtracted_iff (p : SectionPacket s.bytes) (old : TSPacket) :
    PatExtracted d ((p.packet old).parse.2.payloadByte behind) s.programs ↔
      PatFits d p behind := by
  rw [p.payloadByte_parse, PatFits]
  cases h : p.adaptation with
  | none =>
    obtain ⟨htable, hlen, hread⟩ := patRead_of_none p behind h
    rw [patExtracted_iff_read htable hlen hread, lookup_append_eq_iff, nitPid_append,
      nitPid_of_nodup s.nodup, and_assoc]
    rfl
  | some field =>
    obtain ⟨htable, hlen, hread⟩ := patRead_of_some p behind h
    rw [patExtracted_iff_read htable hlen hread, and_assoc]

end Demultiplexor
