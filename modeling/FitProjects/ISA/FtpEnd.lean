import FitProjects.ISA.FtpFrames

/-! # The end of an FTP session

When the client has closed the connection `receive` returns 1, as it does when `select` has timed
out, and `startCommunication` calls it for ever. A session ends by what is parsed: `Concludes`
looks for a frame that is neither a `USER` command nor without an end. The last frame is cut off by
the close, and parsed over what earlier commands have left behind it. -/

namespace FtpSession

/-- A buffer that is taken for something else than a `USER` command. -/
def Final (buffer : List UInt8) : Prop := (strstr buffer).isSome ∧ buffer.take 5 ≠ user

instance : DecidablePred Final := fun _ => inferInstanceAs (Decidable (_ ∧ _))

/-- Among the frames of the arrivals is one that ends the session, and none up to it overflows an
`int`. The first frame is laid over `buffer`. -/
inductive Concludes (before : Nat → UInt8) : List UInt8 → List Arrival → Prop
  | timeout : Concludes before buffer socket → Concludes before buffer (.timeout :: socket)
  | last : frame before buffer.length [] (.segment c bytes :: socket) = f →
      f.text.length < 2 ^ 31 → f.code = 0 → Final (layer buffer f.cap f.text) →
      Concludes before buffer (.segment c bytes :: socket)
  | next : frame before buffer.length [] (.segment c bytes :: socket) = f →
      f.text.length < 2 ^ 31 → Concludes before (layer buffer f.cap f.text) f.socket →
      Concludes before buffer (.segment c bytes :: socket)

/-- `startCommunication` ends, and no sum has overflowed. -/
def Ends (before : Nat → UInt8) (socket : List Arrival) : Prop :=
  ∃ fuel s, startCommunication before fuel (start socket) = some s ∧ ∀ op ∈ s.ops, op.Fits

variable {before : Nat → UInt8} {s : Session} {buffer : List UInt8} {socket : List Arrival}

/-- What is still to come, where `startCommunication` is. -/
def Will (before : Nat → UInt8) (s : Session) : Prop :=
  match s.pc with
  | .head =>
    s.data.state = .unknown ∨ s.data.state = .invalidLogin ∨
      Concludes before s.data.buffer s.socket
  | .receive => Concludes before s.data.buffer s.socket
  | .parse => Final s.data.buffer ∨ Concludes before s.data.buffer s.socket
  | .done => True

/-- The state is one in which commands are asked for. -/
def Data.Open (d : Data) : Prop := d.state ≠ .unknown ∧ d.state ≠ .invalidLogin

structure Inv (s : Session) : Prop where
  isOpen : s.pc = .receive ∨ s.pc = .parse → s.data.Open
  size_pos : 0 < s.data.buffer.length

/-! ## One step -/

theorem parseCommand_spec (s : Session) (h : s.data.Open) :
    (parseCommand s).data.buffer = s.data.buffer ∧ (parseCommand s).socket = s.socket ∧
      ((parseCommand s).data.Open ↔ ¬ Final s.data.buffer) ∧
      ((∀ op ∈ (parseCommand s).ops, op.Fits) ↔ ∀ op ∈ s.ops, op.Fits) := by
  have hpass : pass ≠ user := by decide
  rw [parseCommand, Final]
  cases strstr s.data.buffer with
  | none => simp [Session.record, h, or_imp, forall_and, Op.Fits]
  | some i =>
    simp only [Session.record]
    split_ifs <;> simp [*, Data.Open, or_imp, forall_and, Op.Fits]

theorem concludes_timeout_iff :
    Concludes before buffer (.timeout :: socket) ↔ Concludes before buffer socket := by
  constructor
  · rintro ⟨h⟩
    exact h
  · exact .timeout

theorem concludes_segment_iff :
    Concludes before buffer (.segment c bytes :: socket) ↔
      let f := frame before buffer.length [] (.segment c bytes :: socket)
      f.text.length < 2 ^ 31 ∧
        (f.code = 0 ∧ Final (layer buffer f.cap f.text) ∨
          Concludes before (layer buffer f.cap f.text) f.socket) := by
  constructor
  · intro h
    cases h with
    | last hf hlt hcode hfinal => exact hf ▸ ⟨hlt, .inl ⟨hcode, hfinal⟩⟩
    | next hf hlt h => exact hf ▸ ⟨hlt, .inr h⟩
  · rintro ⟨hlt, ⟨hcode, hfinal⟩ | h⟩
    · exact .last rfl hlt hcode hfinal
    · exact .next rfl hlt h

/-- All sums so far fit, and the session will end. -/
def WillEnd (before : Nat → UInt8) (s : Session) : Prop :=
  (∀ op ∈ s.ops, op.Fits) ∧ Will before s

theorem will_head (hpc : s.pc = .head) : Will before s ↔
    s.data.state = .unknown ∨ s.data.state = .invalidLogin ∨
      Concludes before s.data.buffer s.socket := by
  rw [Will, hpc]

theorem will_receive (hpc : s.pc = .receive) :
    Will before s ↔ Concludes before s.data.buffer s.socket := by
  rw [Will, hpc]

theorem will_parse (hpc : s.pc = .parse) :
    Will before s ↔ Final s.data.buffer ∨ Concludes before s.data.buffer s.socket := by
  rw [Will, hpc]

/-- `receive` when there is something to read: a frame has been laid over the buffer. -/
theorem step_segment (before : Nat → UInt8) (hpos : 0 < s.data.buffer.length)
    (hpc : s.pc = .receive) (hsocket : s.socket = .segment c bytes :: socket)
    (hframe : frame before s.data.buffer.length [] (.segment c bytes :: socket) = f) :
    ∃ ops, step before s = { s.collected s.data.buffer f ops with
        pc := if f.code = 0 then .parse else .receive } ∧
      0 < (layer s.data.buffer f.cap f.text).length ∧
      ((∀ op ∈ ops, op.Fits) ↔ f.text.length < 2 ^ 31) := by
  obtain ⟨ops, hops, hreceive⟩ := exists_receive_segment before hpos hsocket
  rw [hsocket, hframe] at hops hreceive
  have hle : s.data.buffer.length ≤ f.cap := hops.le_cap
  refine ⟨ops, ?_, ?_, hops.fits_iff (by decide)⟩
  · by_cases hcode : f.code = 0
    · simp [step, hpc, hreceive, hcode]
    · simp [step, hpc, hreceive, hcode, Session.collected]
  · rw [length_layer (Nat.le_of_lt hops.text_lt) hle]
    exact Nat.lt_of_le_of_lt (Nat.zero_le _) hops.text_lt

theorem step_head_open (before : Nat → UInt8) (hpc : s.pc = .head) (h : s.data.Open) :
    step before s = { sendResponse s with pc := .receive } := by
  rw [step, hpc]
  simp only [if_neg h.1, if_neg h.2]

theorem step_head_closed (before : Nat → UInt8) (hpc : s.pc = .head) (h : ¬ s.data.Open) :
    (step before s).pc = .done ∧ (step before s).ops = s.ops ∧ (step before s).data = s.data := by
  rw [step, hpc]
  by_cases hunknown : s.data.state = .unknown
  · simp only [if_pos hunknown, and_self]
  · have hlogin : s.data.state = .invalidLogin := by
      by_contra hlogin
      exact h ⟨hunknown, hlogin⟩
    simp [hlogin, sendResponse]

theorem step_parse (before : Nat → UInt8) (hpc : s.pc = .parse) (h : s.data.Open) :
    (step before s).pc = .head ∧ (step before s).data.buffer = s.data.buffer ∧
      (step before s).socket = s.socket ∧ ((step before s).data.Open ↔ ¬ Final s.data.buffer) ∧
      ((∀ op ∈ (step before s).ops, op.Fits) ↔ ∀ op ∈ s.ops, op.Fits) := by
  simp only [step, hpc]
  exact ⟨trivial, parseCommand_spec s h⟩

/-- `receive` when nothing can be read. -/
theorem step_nothing (before : Nat → UInt8) (hpc : s.pc = .receive)
    (hsocket : s.socket = [] ∨ ∃ socket, s.socket = .error :: socket) :
    step before s = s.cleared := by
  rcases hsocket with hsocket | ⟨socket, hsocket⟩
  · simp only [step, hpc, receive, hsocket, Session.cleared]
    rfl
  · simp only [step, hpc, receive, hsocket, Session.cleared]
    rfl

theorem step_timeout (before : Nat → UInt8) (hpc : s.pc = .receive)
    (hsocket : s.socket = .timeout :: socket) : step before s = { s.cleared with socket } := by
  simp only [step, hpc, receive, hsocket, Session.cleared]
  rfl

theorem Inv.step (h : Inv s) (before : Nat → UInt8) : Inv (step before s) := by
  cases hpc : s.pc with
  | head =>
    by_cases hopen : s.data.Open
    · rw [step_head_open before hpc hopen]
      exact ⟨fun _ => hopen, h.size_pos⟩
    · obtain ⟨hdone, -, hdata⟩ := step_head_closed before hpc hopen
      exact ⟨fun hpc' => by simp [hdone] at hpc', by rw [hdata]; exact h.size_pos⟩
  | receive =>
    have hopen := h.isOpen (.inl hpc)
    cases hsocket : s.socket with
    | nil =>
      rw [step_nothing before hpc (.inl hsocket)]
      exact ⟨fun _ => hopen, h.size_pos⟩
    | cons a socket =>
      cases a with
      | timeout =>
        rw [step_timeout before hpc hsocket]
        exact ⟨fun _ => hopen, h.size_pos⟩
      | error =>
        rw [step_nothing before hpc (.inr ⟨socket, hsocket⟩)]
        exact ⟨fun _ => hopen, h.size_pos⟩
      | segment c bytes =>
        obtain ⟨ops, hstep, hpos, -⟩ := step_segment before h.size_pos hpc hsocket rfl
        rw [hstep]
        exact ⟨fun _ => hopen, hpos⟩
  | parse =>
    obtain ⟨hhead, hbuffer, -⟩ := step_parse before hpc (h.isOpen (.inr hpc))
    exact ⟨fun hpc' => by simp [hhead] at hpc', by rw [hbuffer]; exact h.size_pos⟩
  | done =>
    simp only [FtpSession.step, hpc]
    exact h

/-- A step changes nothing about what will become of the session. -/
theorem Inv.willEnd_step_iff (h : Inv s) (before : Nat → UInt8) :
    WillEnd before (FtpSession.step before s) ↔ WillEnd before s := by
  cases hpc : s.pc with
  | head =>
    rw [WillEnd, WillEnd, will_head hpc]
    by_cases hopen : s.data.Open
    · rw [step_head_open before hpc hopen, will_receive rfl]
      simp only [sendResponse, hopen.1, hopen.2, false_or]
    · obtain ⟨hdone, hops, -⟩ := step_head_closed before hpc hopen
      rw [hops]
      refine and_congr_right fun _ => iff_of_true (by rw [Will, hdone]; trivial) ?_
      rw [Data.Open, not_and_or, not_not, not_not] at hopen
      exact hopen.imp_right .inl
  | receive =>
    have hpc' : s.cleared.pc = .receive := hpc
    rw [WillEnd, WillEnd, will_receive hpc]
    cases hsocket : s.socket with
    | nil =>
      rw [step_nothing before hpc (.inl hsocket), will_receive hpc', ← hsocket]
      rfl
    | cons a socket =>
      cases a with
      | timeout =>
        rw [step_timeout before hpc hsocket, concludes_timeout_iff]
        exact and_congr_right fun _ => will_receive hpc'
      | error =>
        rw [step_nothing before hpc (.inr ⟨socket, hsocket⟩), will_receive hpc', ← hsocket]
        rfl
      | segment c bytes =>
        obtain ⟨f, hframe⟩ : ∃ f,
          frame before s.data.buffer.length [] (.segment c bytes :: socket) = f := ⟨_, rfl⟩
        obtain ⟨ops, hstep, -, hfits⟩ := step_segment before h.size_pos hpc hsocket hframe
        rw [hstep, concludes_segment_iff, hframe]
        simp only [Session.collected, List.forall_mem_append, hfits, and_assoc]
        refine and_congr_right fun _ => and_congr_right fun _ => ?_
        by_cases hcode : f.code = 0
        · rw [will_parse (by simp only [hcode, if_pos])]
          simp only [hcode, true_and]
        · rw [will_receive (by simp only [hcode, if_false])]
          simp only [hcode, false_and, false_or]
  | parse =>
    obtain ⟨hhead, hbuffer, hsocket, hopen, hfits⟩ :=
      step_parse before hpc (h.isOpen (.inr hpc))
    rw [WillEnd, WillEnd, will_head hhead, will_parse hpc, hbuffer, hsocket, hfits, ← or_assoc]
    refine and_congr_right fun _ => or_congr_left ?_
    rw [← not_iff_not, ← hopen, Data.Open, not_or]
  | done =>
    have hstep : FtpSession.step before s = s := by simp only [FtpSession.step, hpc]
    rw [hstep]

/-! ## The whole run -/

theorem Inv.iterate (h : Inv s) (before : Nat → UInt8) (n : Nat) :
    Inv ((FtpSession.step before)^[n] s) := by
  induction n with
  | zero => exact h
  | succ n ih =>
    rw [Function.iterate_succ_apply']
    exact ih.step before

theorem Inv.willEnd_iterate_iff (h : Inv s) (before : Nat → UInt8) (n : Nat) :
    WillEnd before ((FtpSession.step before)^[n] s) ↔ WillEnd before s := by
  induction n with
  | zero => rfl
  | succ n ih => rw [Function.iterate_succ_apply', (h.iterate before n).willEnd_step_iff, ih]

/-- The session comes to its end. -/
def Halts (before : Nat → UInt8) (s : Session) : Prop := ∃ n, ((step before)^[n] s).pc = .done

theorem Halts.of_step (h : Halts before (step before s)) : Halts before s := by
  obtain ⟨n, hn⟩ := h
  exact ⟨n + 1, hn⟩

theorem halts_of_final (hpc : s.pc = .parse) (h : s.data.Open) (hfinal : Final s.data.buffer) :
    Halts before s := by
  obtain ⟨hhead, -, -, hopen, -⟩ := step_parse before hpc h
  refine .of_step (.of_step ⟨0, ?_⟩)
  exact (step_head_closed before hhead fun hopen' => hopen.mp hopen' hfinal).1

/-- What is not final is forgotten, but for the contents of the buffer. -/
theorem halts_of_not_final (hpc : s.pc = .parse) (h : s.data.Open)
    (hfinal : ¬ Final s.data.buffer)
    (hnext : ∀ s', s'.pc = .receive → s'.data.Open → s'.data.buffer = s.data.buffer →
      s'.socket = s.socket → Halts before s') : Halts before s := by
  obtain ⟨hhead, hbuffer, hsocket, hopen, -⟩ := step_parse before hpc h
  refine .of_step (.of_step ?_)
  rw [step_head_open before hhead (hopen.mpr hfinal)]
  exact hnext _ rfl (hopen.mpr hfinal) hbuffer hsocket

theorem Concludes.halts (h : Concludes before buffer socket) (hpc : s.pc = .receive)
    (hopen : s.data.Open) (hpos : 0 < s.data.buffer.length) (hbuffer : s.data.buffer = buffer)
    (hsocket : s.socket = socket) : Halts before s := by
  induction h generalizing s with
  | timeout _ ih =>
    refine .of_step ?_
    rw [step_timeout before hpc hsocket]
    exact ih hpc hopen hpos hbuffer rfl
  | last hframe hlt hcode hfinal =>
    subst hbuffer
    obtain ⟨ops, hstep, -, -⟩ := step_segment before hpos hpc hsocket hframe
    refine .of_step ?_
    rw [hstep, if_pos hcode]
    exact halts_of_final rfl hopen hfinal
  | next hframe hlt hnext ih =>
    subst hbuffer
    obtain ⟨ops, hstep, hpos', -⟩ := step_segment before hpos hpc hsocket hframe
    refine .of_step ?_
    rw [hstep]
    split_ifs
    · refine (Decidable.em (Final _)).elim (halts_of_final rfl hopen) fun hfinal => ?_
      refine halts_of_not_final rfl hopen hfinal fun s' hpc' hopen' hbuffer' hsocket' => ?_
      exact ih hpc' hopen' (by rw [hbuffer']; exact hpos') hbuffer' hsocket'
    · exact ih rfl hopen hpos' rfl rfl

theorem inv_start (socket : List Arrival) : Inv (start socket) :=
  ⟨fun h => by simp [start] at h, by simp [start, defaultSize]⟩

theorem willEnd_start_iff : WillEnd before (start socket) ↔
    Concludes before (List.replicate defaultSize 0) socket := by
  simp [WillEnd, will_head, start]

theorem ends_iff_exists : Ends before socket ↔
    ∃ n, (∀ k < n, ((step before)^[k] (start socket)).pc ≠ .done) ∧
      ((step before)^[n] (start socket)).pc = .done ∧
      ∀ op ∈ ((step before)^[n] (start socket)).ops, op.Fits := by
  rw [Ends]
  simp only [startCommunication, loop.exists_iff (P := fun s : Session => ∀ op ∈ s.ops, op.Fits),
    decide_eq_true_eq, decide_eq_false_iff_not, not_not]

theorem Ends.concludes (h : Ends before socket) :
    Concludes before (List.replicate defaultSize 0) socket := by
  obtain ⟨n, -, hdone, hfits⟩ := ends_iff_exists.mp h
  rw [← willEnd_start_iff, ← (inv_start socket).willEnd_iterate_iff before n]
  exact ⟨hfits, by rw [Will, hdone]; trivial⟩

/-- `startCommunication` ends after the client has closed the connection if and only if something
that the client has sent ends the session. -/
theorem ends_iff (before : Nat → UInt8) (socket : List Arrival) :
    Ends before socket ↔ Concludes before (List.replicate defaultSize 0) socket := by
  refine ⟨Ends.concludes, fun h => ends_iff_exists.mpr ?_⟩
  have hopen : (start socket).data.Open := ⟨by simp [start], by simp [start]⟩
  have hhalts : Halts before (start socket) := by
    refine .of_step ?_
    rw [step_head_open before rfl hopen]
    exact h.halts rfl hopen (inv_start socket).size_pos rfl rfl
  have hwill := ((inv_start socket).willEnd_iterate_iff before (Nat.find hhalts)).mpr
    (willEnd_start_iff.mpr h)
  exact ⟨Nat.find hhalts, fun k hk => Nat.find_min hhalts hk, Nat.find_spec hhalts, hwill.1⟩

/-- A client that closes the connection at once. -/
theorem not_ends_nil : ¬ Ends (fun _ => 0) [] := fun h => nomatch h.concludes

end FtpSession
