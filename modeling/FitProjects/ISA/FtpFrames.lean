import FitProjects.ISA.FtpSession

/-! # What one call of `receive` collects

`frame` cuts the next command out of the arrivals. It knows the bytes of the command and the size
of the buffer and nothing else: not what earlier commands have left in the buffer. `exists_fill`
shows that `receive` lays these bytes over the old contents (`layer`), and which of its accesses and
sums are defined. -/

namespace FtpSession

/-- What a call of `receive` ends with. -/
structure Frame where
  code : Nat
  cap : Nat
  text : List UInt8
  socket : List Arrival
  deriving DecidableEq, Repr

/-- The size of a buffer after it has been filled up to `n` bytes. -/
def grow (cap n : Nat) : Nat := if cap ≤ n then cap + cap else cap

/-- A buffer that held `old`, grown to `cap` bytes, with `text` at its start. -/
def layer (old : List UInt8) (cap : Nat) (text : List UInt8) : List UInt8 :=
  text ++ (old ++ List.replicate (cap - old.length) 0).drop text.length

variable (before : Nat → UInt8)

/-- A text that is taken for a whole command. -/
def Ready (cap : Nat) (text : List UInt8) : Prop := crlf <:+ text ∨ text = [10] ∧ before cap = 13

instance : Decidable (Ready before cap text) := inferInstanceAs (Decidable (_ ∨ _))

/-- The command that begins with `text`, in a buffer of `cap` bytes. -/
def frame (cap : Nat) (text : List UInt8) (socket : List Arrival) : Frame :=
  match _h : recv (cap - text.length) socket with
  | (none, socket) => ⟨2, cap, text, socket⟩
  | (some [], socket) => ⟨0, cap, text, socket⟩
  | (some (c :: bytes), socket) =>
    let text' := text ++ c :: bytes
    let cap' := grow cap text'.length
    if Ready before cap' text' then ⟨0, cap', text', socket⟩ else frame cap' text' socket
termination_by unread socket
decreasing_by exact unread_recv_lt _h

variable {before} {cap : Nat} {old text bytes : List UInt8} {s : Session}

theorem crlf_suffix_iff {pre : List UInt8} {a b : UInt8} :
    crlf <:+ pre ++ [a] ++ [b] ↔ a = 13 ∧ b = 10 := by
  constructor
  · rintro ⟨t, ht⟩
    rw [List.append_assoc] at ht
    obtain ⟨-, hlast⟩ := List.append_inj' ht rfl
    simp only [crlf, List.singleton_append, List.cons.injEq, and_true] at hlast
    exact ⟨hlast.1.symm, hlast.2.symm⟩
  · rintro ⟨rfl, rfl⟩
    exact ⟨pre, by simp [crlf]⟩

/-! ## The buffer -/

theorem length_recv_le (h : recv room socket = (some bytes, socket')) : bytes.length ≤ room := by
  induction socket with
  | nil =>
    obtain ⟨rfl, -⟩ : [] = bytes ∧ _ := by simpa [recv] using h
    exact Nat.zero_le _
  | cons a socket ih =>
    cases a with
    | timeout => exact ih h
    | segment c rest =>
      obtain ⟨htake, -⟩ := Prod.mk.inj h
      rw [← Option.some.inj htake]
      exact List.length_take_le ..
    | error => simp [recv] at h

theorem lt_grow (hcap : 0 < cap) (h : n ≤ cap) : n < grow cap n := by
  unfold grow
  split <;> omega

theorem le_grow : cap ≤ grow cap n := by
  unfold grow
  split <;> omega

theorem length_layer (htext : text.length ≤ cap) (hold : old.length ≤ cap) :
    (layer old cap text).length = cap := by
  rw [layer, List.length_append, List.length_drop, List.length_append, List.length_replicate]
  omega

theorem layer_take (h : n = text.length) : (layer old cap text).take n = text := by
  rw [layer, h, List.take_left]

/-- The buffer `old` with the bytes `text` at its start. -/
structure Holds (old : List UInt8) (cap : Nat) (text : List UInt8) (d : Data) : Prop where
  buffer : d.buffer = layer old cap text
  bufferSize : d.bufferSize = text.length
  text_lt : text.length < cap
  old_le : old.length ≤ cap

namespace Holds

variable {d : Data}

theorem length (h : Holds old cap text d) : d.buffer.length = cap := by
  rw [h.buffer, length_layer (Nat.le_of_lt h.text_lt) h.old_le]

theorem store (h : Holds old cap text d) (hbytes : bytes.length ≤ cap - text.length) :
    Holds old (grow cap (text ++ bytes).length) (text ++ bytes) (d.store bytes) := by
  have htext := h.text_lt
  have hold := h.old_le
  have hlen : (text ++ bytes).length ≤ cap := by
    rw [List.length_append]
    omega
  have hsize : d.bufferSize + bytes.length = (text ++ bytes).length := by
    rw [h.bufferSize, List.length_append]
  refine ⟨?_, hsize, lt_grow (by omega) hlen, Nat.le_trans h.old_le le_grow⟩
  have hdrop : d.buffer.drop (text ++ bytes).length =
      (old ++ List.replicate (cap - old.length) 0).drop (text ++ bytes).length := by
    rw [h.buffer, layer, List.length_append, List.drop_length_add_append, List.drop_drop]
  have hstored : d.buffer.take d.bufferSize ++ bytes ++ d.buffer.drop (text ++ bytes).length =
      layer old cap (text ++ bytes) := by
    rw [hdrop, h.buffer, layer_take h.bufferSize, layer]
  simp only [Data.store, hsize, hstored, h.length, grow]
  split
  · -- the zeros of the new half are the last ones of the larger buffer
    have hreplicate : List.replicate (cap + cap - old.length) (0 : UInt8) =
        List.replicate (cap - old.length) 0 ++ List.replicate cap 0 := by
      rw [← List.replicate_add]
      congr 1
      omega
    have hinside : (text ++ bytes).length ≤
        (old ++ List.replicate (cap - old.length) (0 : UInt8)).length := by
      rw [@List.length_append _ old, List.length_replicate]
      omega
    simp only [layer]
    rw [hreplicate, ← List.append_assoc old, List.drop_append_of_le_length hinside,
      List.append_assoc (text ++ bytes)]
  · rfl

theorem isReadyToParse_iff_get : (isReadyToParse before d).1 = true ↔
    d.get before (d.bufferSize - 2) = 13 ∧ d.get before (d.bufferSize - 1) = 10 := by
  simp only [isReadyToParse]
  split
  · next h => simp [h]
  · next h => simp [h]

/-- The last byte is the only one of the text, behind the byte in front of the buffer, or it has a
byte of the text before it. -/
theorem isReadyToParse_iff (h : Holds old cap text d) (htext : text ≠ []) :
    (isReadyToParse before d).1 = true ↔ Ready before cap text := by
  rw [isReadyToParse_iff_get, h.bufferSize]
  rcases text.eq_nil_or_concat' with rfl | ⟨pre, b, rfl⟩
  · exact absurd rfl htext
  rcases pre.eq_nil_or_concat' with rfl | ⟨pre, a, rfl⟩
  · have hoff : ¬ crlf <:+ [b] := fun hsuffix => Nat.not_succ_le_self 1 hsuffix.length_le
    have hfirst : d.get before ((1 : Nat) - 2) = before cap := by
      rw [Data.get, if_pos (by decide), h.length]
    have hsecond : d.get before ((1 : Nat) - 1) = b := by simp [Data.get, h.buffer, layer]
    have hlen : ([] ++ [b]).length = 1 := rfl
    rw [hlen, hfirst, hsecond]
    simp only [Ready, List.nil_append, hoff, false_or, List.cons.injEq, and_true]
    exact and_comm
  · have hlen : (pre ++ [a] ++ [b]).length = pre.length + 2 := by simp
    have hi : ((pre.length + 2 : Nat) : Int) - 2 = pre.length := by omega
    have hj : ((pre.length + 2 : Nat) : Int) - 1 = (pre.length + 1 : Nat) := by omega
    have hfirst : d.get before pre.length = a := by simp [Data.get, h.buffer, layer]
    have hsecond : d.get before (pre.length + 1 : Nat) = b := by
      rw [Data.get, if_neg (by omega)]
      simp [h.buffer, layer]
    rw [hlen, hi, hj, hfirst, hsecond, ← crlf_suffix_iff]
    refine ⟨.inl, fun hready => hready.resolve_right ?_⟩
    rintro ⟨hone, -⟩
    have hlength := congrArg List.length hone
    rw [hlen] at hlength
    exact absurd hlength (by rw [List.length_singleton]; omega)

/-- Of the reads of the last two bytes, the first is outside of the buffer behind a single byte. -/
theorem isReadyToParse_defined_iff (h : Holds old cap text d) (htext : text ≠ []) :
    (∀ op ∈ (isReadyToParse before d).2, op.Defined) ↔ 2 ≤ text.length := by
  have hlt := h.text_lt
  have hpos : 0 < text.length := List.length_pos_iff.mpr htext
  simp only [isReadyToParse, h.bufferSize, h.length]
  split
  · simp only [List.forall_mem_cons, Op.defined_access, List.not_mem_nil, false_imp_iff,
      implies_true, and_true]
    omega
  · simp only [List.forall_mem_cons, Op.defined_access, List.not_mem_nil, false_imp_iff,
      implies_true, and_true]
    omega

end Holds

/-! ## The loop of `receive` -/

/-- The number of bytes that `recv` is asked for. -/
def Session.room (s : Session) : Nat := s.data.buffer.length - s.data.bufferSize

/-- The session after a read. -/
def Session.stored (before : Nat → UInt8) (s : Session) (bytes : List UInt8)
    (socket : List Arrival) : Session :=
  let s := { s with socket }.store bytes
  s.record (isReadyToParse before s.data).2

theorem fill_of_none (h : recv s.room s.socket = (none, socket)) :
    fill before s = (2, { s with socket }) := by
  rw [fill]
  split <;> simp_all [Session.room]

theorem fill_of_nil (h : recv s.room s.socket = (some [], socket)) :
    fill before s = (0, { s with socket }) := by
  rw [fill]
  split <;> simp_all [Session.room]

theorem fill_of_cons (h : recv s.room s.socket = (some (c :: bytes), socket)) :
    fill before s =
      if (isReadyToParse before (s.data.store (c :: bytes))).1 then
        (0, s.stored before (c :: bytes) socket)
      else fill before (s.stored before (c :: bytes) socket) := by
  rw [fill]
  split
  · simp_all [Session.room]
  · simp_all [Session.room]
  · next hrecv =>
    rw [Session.room, hrecv] at h
    obtain ⟨hbytes, rfl⟩ := Prod.mk.inj h
    obtain ⟨rfl, rfl⟩ := List.cons.inj (Option.some.inj hbytes)
    rfl

theorem frame_of_none (h : recv (cap - text.length) socket = (none, socket')) :
    frame before cap text socket = ⟨2, cap, text, socket'⟩ := by
  rw [frame]
  split <;> simp_all

theorem frame_of_nil (h : recv (cap - text.length) socket = (some [], socket')) :
    frame before cap text socket = ⟨0, cap, text, socket'⟩ := by
  rw [frame]
  split <;> simp_all

theorem frame_of_cons (h : recv (cap - text.length) socket = (some (c :: bytes), socket')) :
    frame before cap text socket =
      if Ready before (grow cap (text ++ c :: bytes).length) (text ++ c :: bytes) then
        ⟨0, grow cap (text ++ c :: bytes).length, text ++ c :: bytes, socket'⟩
      else frame before (grow cap (text ++ c :: bytes).length) (text ++ c :: bytes) socket' := by
  rw [frame]
  split
  · simp_all
  · simp_all
  · next hrecv =>
    rw [hrecv] at h
    obtain ⟨hbytes, rfl⟩ := Prod.mk.inj h
    obtain ⟨rfl, rfl⟩ := List.cons.inj (Option.some.inj hbytes)
    rfl

theorem ops_fill_isPrefix (before : Nat → UInt8) (s : Session) :
    s.ops <+: (fill before s).2.ops := by
  induction hn : unread s.socket using Nat.strongRecOn generalizing s with
  | ind n ih =>
    obtain ⟨⟨result, socket⟩, hrecv⟩ : ∃ p, recv s.room s.socket = p := ⟨_, rfl⟩
    rcases result with _ | (_ | ⟨c, bytes⟩)
    · rw [fill_of_none hrecv]
    · rw [fill_of_nil hrecv]
    · have hstored : s.ops <+: (s.stored before (c :: bytes) socket).ops := by
        simp [Session.stored, Session.store, Session.record]
      rw [fill_of_cons hrecv]
      split
      · exact hstored
      · exact hstored.trans (ih _ (by rw [← hn]; exact unread_recv_lt hrecv) _ rfl)

/-- The sum, if there is one, fits into an `int`. -/
def Op.Fits : Op → Prop
  | access .. => True
  | add sum => sum < 2 ^ 31

/-- The operations of one pass of the loop. -/
def readOps (before : Nat → UInt8) (d : Data) (bytes : List UInt8) : List Op :=
  [.access d.bufferSize bytes.length d.buffer.length, .add (d.bufferSize + bytes.length)] ++
    (isReadyToParse before (d.store bytes)).2

theorem stored_eq : s.stored before bytes socket =
    { s with
      socket
      data := s.data.store bytes
      ops := s.ops ++ readOps before s.data bytes } := by
  simp [Session.stored, Session.store, Session.record, readOps]

theorem Holds.readOps_fits_iff (h : Holds old cap text s.data) :
    (∀ op ∈ readOps before s.data bytes, op.Fits) ↔ (text ++ bytes).length < 2 ^ 31 := by
  have hready : ∀ op ∈ (isReadyToParse before (s.data.store bytes)).2, op.Fits := by
    simp only [isReadyToParse]
    split <;> simp [Op.Fits]
  simp only [readOps, List.forall_mem_append, List.forall_mem_cons, Op.Fits, h.bufferSize,
    List.length_append, true_and]
  exact ⟨fun hfits => hfits.1.1, fun hlt => ⟨⟨hlt, by simp⟩, hready⟩⟩

theorem Holds.readOps_defined_iff (h : Holds old cap text s.data) (hbytes : bytes ≠ [])
    (hle : bytes.length ≤ cap - text.length) :
    (∀ op ∈ readOps before s.data bytes, op.Defined) ↔
      (text ++ bytes).length < 2 ^ 31 ∧ 2 ≤ (text ++ bytes).length := by
  have hlt := h.text_lt
  have hready : (∀ op ∈ (isReadyToParse before (s.data.store bytes)).2, op.Defined) ↔
      2 ≤ (text ++ bytes).length := (h.store hle).isReadyToParse_defined_iff (by simp [hbytes])
  simp only [readOps, List.forall_mem_append, hready, List.forall_mem_cons, Op.defined_access,
    Op.defined_add, h.bufferSize, h.length, List.length_append]
  refine and_congr_left fun _ => ⟨fun hops => hops.2.1, fun hsum => ⟨⟨?_, ?_⟩, hsum, by simp⟩⟩
  · omega
  · omega

/-- The session after `receive` has laid a frame over the buffer. -/
def Session.collected (s : Session) (old : List UInt8) (f : Frame) (ops : List Op) : Session :=
  { s with
    socket := f.socket
    data := { s.data with buffer := layer old f.cap f.text, bufferSize := f.text.length }
    ops := s.ops ++ ops }

/-- What the loop of `receive` comes to, and when all that it does is defined: the sums must fit,
and the first read must have left two bytes to look at. -/
structure Collects (before : Nat → UInt8) (s : Session) (old : List UInt8) (text : List UInt8)
    (f : Frame) (ops : List Op) : Prop where
  fill_eq : fill before s = (f.code, s.collected old f ops)
  text_lt : f.text.length < f.cap
  le_cap : s.data.buffer.length ≤ f.cap
  isPrefix : text <+: f.text
  fits_iff : text.length < 2 ^ 31 → ((∀ op ∈ ops, op.Fits) ↔ f.text.length < 2 ^ 31)
  defined_iff : text.length < 2 ^ 31 → ((∀ op ∈ ops, op.Defined) ↔ f.text.length < 2 ^ 31 ∧
    ∀ bytes socket, bytes ≠ [] → recv s.room s.socket = (some bytes, socket) →
      2 ≤ (text ++ bytes).length)

theorem Collects.stop (h : Holds old cap text s.data)
    (hfill : fill before s = (code, { s with socket }))
    (hrecv : ∀ bytes socket, bytes ≠ [] → recv s.room s.socket ≠ (some bytes, socket)) :
    Collects before s old text ⟨code, cap, text, socket⟩ [] where
  fill_eq := by
    rw [hfill]
    simp [Session.collected, ← h.buffer, ← h.bufferSize]
  text_lt := h.text_lt
  le_cap := Nat.le_of_eq h.length
  isPrefix := List.prefix_rfl
  fits_iff hlt := iff_of_true (fun _ hop => nomatch hop) hlt
  defined_iff hlt := iff_of_true (fun _ hop => nomatch hop)
    ⟨hlt, fun bytes socket hne heq => absurd heq (hrecv bytes socket hne)⟩

theorem Holds.stored (h : Holds old cap text s.data) (hle : bytes.length ≤ cap - text.length) :
    Holds old (grow cap (text ++ bytes).length) (text ++ bytes)
      (s.stored before bytes socket).data := by
  rw [stored_eq]
  exact h.store hle

/-- A read that completes the command. -/
theorem Collects.last (h : Holds old cap text s.data) (hne : bytes ≠ [])
    (hrecv : recv s.room s.socket = (some bytes, socket))
    (hle : bytes.length ≤ cap - text.length)
    (hfill : fill before s = (0, s.stored before bytes socket)) :
    Collects before s old text ⟨0, grow cap (text ++ bytes).length, text ++ bytes, socket⟩
      (readOps before s.data bytes) where
  fill_eq := by
    have hstore := h.store hle
    rw [hfill, stored_eq]
    simp only [Session.collected]
    rw [← hstore.buffer, ← hstore.bufferSize]
    rfl
  text_lt := (h.store hle).text_lt
  le_cap := Nat.le_trans (Nat.le_of_eq h.length) le_grow
  isPrefix := List.prefix_append ..
  fits_iff _ := h.readOps_fits_iff
  defined_iff _ := by
    rw [h.readOps_defined_iff hne hle]
    refine and_congr_right fun _ => ⟨fun htwo bytes' socket' _ heq => ?_,
      fun hread => hread bytes socket hne hrecv⟩
    obtain ⟨hbytes, -⟩ := Prod.mk.inj (hrecv.symm.trans heq)
    rwa [← Option.some.inj hbytes]

/-- A read after which there is more to come. -/
theorem Collects.more (h : Holds old cap text s.data) (hne : bytes ≠ [])
    (hrecv : recv s.room s.socket = (some bytes, socket))
    (hle : bytes.length ≤ cap - text.length)
    (hfill : fill before s = fill before (s.stored before bytes socket))
    (hmore : Collects before (s.stored before bytes socket) old (text ++ bytes) f ops) :
    Collects before s old text f (readOps before s.data bytes ++ ops) where
  fill_eq := by
    rw [hfill, hmore.fill_eq, stored_eq]
    simp [Session.collected, Data.store]
  text_lt := hmore.text_lt
  le_cap := by
    have hcap := hmore.le_cap
    rw [(h.stored hle).length] at hcap
    exact Nat.le_trans (Nat.le_of_eq h.length) (Nat.le_trans le_grow hcap)
  isPrefix := (List.prefix_append ..).trans hmore.isPrefix
  fits_iff _ := by
    rw [List.forall_mem_append, h.readOps_fits_iff]
    refine ⟨fun hops => (hmore.fits_iff hops.1).mp hops.2, fun hlt => ?_⟩
    have hshort := Nat.lt_of_le_of_lt hmore.isPrefix.length_le hlt
    exact ⟨hshort, (hmore.fits_iff hshort).mpr hlt⟩
  defined_iff hlt := by
    rw [List.forall_mem_append, h.readOps_defined_iff hne hle]
    have hpos : 0 < bytes.length := List.length_pos_iff.mpr hne
    have hlonger : (text ++ bytes).length ≤ f.text.length := hmore.isPrefix.length_le
    constructor
    · rintro ⟨⟨hshort, htwo⟩, hops⟩
      refine ⟨((hmore.defined_iff hshort).mp hops).1, fun bytes' socket' _ heq => ?_⟩
      obtain ⟨hbytes, -⟩ := Prod.mk.inj (hrecv.symm.trans heq)
      rwa [← Option.some.inj hbytes]
    · rintro ⟨hshort, hread⟩
      have hlt' := Nat.lt_of_le_of_lt hlonger hshort
      refine ⟨⟨hlt', hread bytes socket hne hrecv⟩,
        (hmore.defined_iff hlt').mpr ⟨hshort, fun bytes' _ hne' _ => ?_⟩⟩
      -- a second read follows at least one byte
      have hpos' : 0 < bytes'.length := List.length_pos_iff.mpr hne'
      simp only [List.length_append]
      omega

theorem exists_collects (h : Holds old cap text s.data) :
    ∃ ops, Collects before s old text (frame before cap text s.socket) ops := by
  induction hn : unread s.socket using Nat.strongRecOn generalizing s cap text with
  | ind n ih =>
    have hroom : s.room = cap - text.length := by rw [Session.room, h.length, h.bufferSize]
    obtain ⟨⟨result, socket⟩, hrecv⟩ : ∃ p, recv s.room s.socket = p := ⟨_, rfl⟩
    have hframe := hrecv
    rw [hroom] at hframe
    rcases result with _ | (_ | ⟨c, bytes⟩)
    · rw [frame_of_none hframe]
      refine ⟨[], .stop h (fill_of_none hrecv) fun bytes socket' _ heq => ?_⟩
      simp [hrecv] at heq
    · rw [frame_of_nil hframe]
      refine ⟨[], .stop h (fill_of_nil hrecv) fun bytes socket' hne heq => ?_⟩
      obtain ⟨hbytes, -⟩ := Prod.mk.inj (hrecv.symm.trans heq)
      exact hne (Option.some.inj hbytes).symm
    · have hle := length_recv_le hframe
      have hready : _ ↔ Ready before _ _ := (h.store hle).isReadyToParse_iff (by simp)
      have hfill : fill before s = _ := fill_of_cons hrecv
      rw [frame_of_cons hframe]
      split_ifs with hend
      · rw [if_pos (hready.mpr hend)] at hfill
        exact ⟨_, .last h (List.cons_ne_nil c bytes) hrecv hle hfill⟩
      · rw [if_neg (mt hready.mp hend)] at hfill
        obtain ⟨ops, hops⟩ := ih _ (by rw [← hn]; exact unread_recv_lt hrecv) (h.stored hle) rfl
        exact ⟨_, .more h (List.cons_ne_nil c bytes) hrecv hle hfill hops⟩

/-- The session in which the loop of `receive` begins. -/
def Session.cleared (s : Session) : Session := { s with data := { s.data with bufferSize := 0 } }

/-- `receive` when there is something to read. -/
theorem exists_receive_segment (before : Nat → UInt8) (hpos : 0 < s.data.buffer.length)
    (hsocket : s.socket = .segment c bytes :: socket) :
    ∃ ops, Collects before s.cleared s.data.buffer []
        (frame before s.data.buffer.length [] s.socket) ops ∧
      receive before s =
        ((frame before s.data.buffer.length [] s.socket).code,
          s.collected s.data.buffer (frame before s.data.buffer.length [] s.socket) ops) := by
  have hholds : Holds s.data.buffer s.data.buffer.length [] s.cleared.data :=
    ⟨by simp [layer, Session.cleared], rfl, hpos, Nat.le_refl _⟩
  obtain ⟨ops, hops⟩ : ∃ ops, Collects before s.cleared _ _ _ ops := exists_collects hholds
  have hreceive : receive before s = fill before s.cleared := by
    simp [receive, hsocket, Session.cleared]
  exact ⟨ops, hops, by rw [hreceive, hops.fill_eq]; rfl⟩

end FtpSession
