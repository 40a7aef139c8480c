import FitProjects.ISA.FtpFrames

/-! # Commands that arrive in pieces

A client sends `USER` and `PASS` commands, each after the response to the one before, and each in
pieces. The session depends on the commands only (`Session.view`), but a first piece of one byte
makes `isReadyToParse` look at the byte in front of the buffer, and a command of `2 ^ 31` bytes
overflows `bufferSize`. -/

namespace FtpSession

inductive Word | user | pass
  deriving DecidableEq, Repr

def Word.text : Word → List UInt8
  | user => FtpSession.user
  | pass => FtpSession.pass

/-- A command, the pieces that it arrives in, and how often `select` times out before the first. -/
structure Sending where
  word : Word
  arg : List UInt8
  waits : Nat
  pieces : List (List UInt8)
  noNul : 0 ∉ word.text ++ arg
  noCrlf : ¬ crlf <:+: word.text ++ arg
  flatten_pieces : pieces.flatten = word.text ++ arg ++ crlf
  nonempty : [] ∉ pieces

namespace Sending

def bytes (c : Sending) : List UInt8 := c.word.text ++ c.arg ++ crlf

/-- What the socket sees of a command. -/
def arrivals (c : Sending) : List Arrival :=
  List.replicate c.waits .timeout ++ c.pieces.flatMap pending

/-- The command in one piece. -/
def whole (c : Sending) : Sending where
  word := c.word
  arg := c.arg
  waits := c.waits
  pieces := [c.bytes]
  noNul := c.noNul
  noCrlf := c.noCrlf
  flatten_pieces := by rw [List.flatten_singleton, bytes]
  nonempty := by simp [bytes, crlf]

/-- The command fits into an `int`, and its first piece is not a single byte. -/
def Fits (c : Sending) : Prop :=
  c.bytes.length < 2 ^ 31 ∧ ∀ piece, c.pieces.head? = some piece → 2 ≤ piece.length

end Sending

/-- The commands that are answered: none after the first `PASS`. -/
def heard : List Sending → List Sending
  | [] => []
  | c :: cs => if c.word = .pass then [c] else c :: heard cs

/-- The arrivals of a conversation. A piece is never received together with bytes of the next. -/
def arrivals (cs : List Sending) : List Arrival := cs.flatMap Sending.arrivals

/-- What does not depend on the pieces. -/
structure View where
  state : States
  login : List UInt8
  password : List UInt8
  sent : List States
  deriving DecidableEq, Repr

def Session.view (s : Session) : View := ⟨s.data.state, s.data.login, s.data.password, s.sent⟩

/-- The session has the view `v` when `n` commands have been answered. -/
def Answered (before : Nat → UInt8) (socket : List Arrival) (n : Nat) (v : View) : Prop :=
  ∃ k, ((step before)^[k] (start socket)).pc = .head ∧
    ((step before)^[k] (start socket)).view = v ∧ v.sent.length = n

/-- The conversation takes the course that it takes with the commands in one piece each, and all
accesses to the buffer are inside of it. -/
def SegmentationIndependent (before : Nat → UInt8) (cs : List Sending) : Prop :=
  (∀ n ≤ (heard cs).length, ∃ v, Answered before (arrivals cs) n v ∧
    Answered before (arrivals (cs.map Sending.whole)) n v) ∧
  ∀ k, ∀ op ∈ ((step before)^[k] (start (arrivals cs))).ops, op.Defined

/-! ## One command -/

variable {before : Nat → UInt8} {c : Sending} {cap : Nat} {text rest : List UInt8}

theorem strstr_append {body : List UInt8} (hnul : 0 ∉ body) (hcrlf : ¬ crlf <:+: body) :
    strstr (body ++ crlf ++ rest) = some body.length := by
  induction body with
  | nil => simp [strstr, crlf]
  | cons x body ih =>
    rw [List.mem_cons, not_or] at hnul
    obtain ⟨hx, hbody⟩ := hnul
    have htail : ¬ crlf <:+: body := fun h => hcrlf (List.infix_cons h)
    have hhead : ¬ crlf <+: x :: (body ++ crlf ++ rest) := by
      intro h
      cases body with
      | nil => simp [crlf] at h
      | cons y body =>
        refine hcrlf (List.IsPrefix.isInfix ?_)
        simpa [crlf] using h
    simp only [List.cons_append, strstr, if_neg (Ne.symm hx), if_neg hhead, ih hbody htail]
    rfl

namespace Sending

theorem head_bytes (c : Sending) : c.bytes.head? = some 85 ∨ c.bytes.head? = some 80 := by
  cases hw : c.word with
  | user => exact .inl (by rw [bytes, hw]; rfl)
  | pass => exact .inr (by rw [bytes, hw]; rfl)

/-- A part of a command is not taken for all of it. -/
theorem ready_iff (h : text <+: c.bytes) (hne : text ≠ []) :
    Ready before cap text ↔ text = c.bytes := by
  constructor
  · rintro (hsuffix | ⟨rfl, -⟩)
    · obtain ⟨t, rfl⟩ := hsuffix
      obtain ⟨u, hu⟩ := h
      rcases u.eq_nil_or_concat' with rfl | ⟨u, x, rfl⟩
      · rw [← hu, List.append_nil]
      · -- an earlier end of a command would be inside of it
        have hsplit : (t ++ crlf ++ u) ++ [x] = (c.word.text ++ c.arg ++ [13]) ++ [10] := by
          rw [List.append_assoc _ u, hu]
          simp [bytes, crlf]
        replace hsplit := (List.append_inj' hsplit rfl).1
        rcases u.eq_nil_or_concat' with rfl | ⟨u, y, rfl⟩
        · have hlast := congrArg List.getLast? hsplit
          simp [crlf] at hlast
        · rw [← List.append_assoc] at hsplit
          have hbody := (List.append_inj' hsplit rfl).1
          exact absurd ⟨t, u, hbody⟩ c.noCrlf
    · obtain ⟨u, hu⟩ := h
      have hhead := c.head_bytes
      rw [← hu] at hhead
      simp at hhead
  · rintro rfl
    exact .inl ⟨_, rfl⟩

end Sending

/-- A read takes from the first piece what there is room for. -/
theorem recv_pieces {piece : List UInt8} {pieces : List (List UInt8)} (room : Nat)
    (socket : List Arrival) (hnonempty : [] ∉ piece :: pieces) :
    ∃ pieces' : List (List UInt8), [] ∉ pieces' ∧
      piece.take room ++ pieces'.flatten = (piece :: pieces).flatten ∧
      recv room ((piece :: pieces).flatMap pending ++ socket) =
        (some (piece.take room), pieces'.flatMap pending ++ socket) := by
  rw [List.mem_cons, not_or] at hnonempty
  obtain ⟨hpiece, hpieces⟩ := hnonempty
  rcases piece with _ | ⟨x, xs⟩
  · exact absurd rfl hpiece
  · cases hdrop : (x :: xs).drop room with
    | nil =>
      have htake : (x :: xs).take room = x :: xs :=
        List.take_of_length_le (List.drop_eq_nil_iff.mp hdrop)
      refine ⟨pieces, hpieces, by rw [htake, List.flatten_cons], ?_⟩
      simp [pending, recv, hdrop]
    | cons y ys =>
      refine ⟨(y :: ys) :: pieces, by simp [hpieces], ?_, ?_⟩
      · rw [List.flatten_cons, List.flatten_cons, ← hdrop, ← List.append_assoc,
          List.take_append_drop]
      · simp [pending, recv, hdrop]

namespace Sending

theorem exists_frame {pieces : List (List UInt8)} (c : Sending) (before : Nat → UInt8)
    (socket : List Arrival)
    (htext : text ++ pieces.flatten = c.bytes) (hnonempty : [] ∉ pieces)
    (hpieces : pieces ≠ []) (hlt : text.length < cap) :
    ∃ cap', frame before cap text (pieces.flatMap pending ++ socket) =
      ⟨0, cap', c.bytes, socket⟩ := by
  induction hn : pieces.flatten.length using Nat.strongRecOn generalizing cap text pieces with
  | ind n ih =>
    rcases pieces with _ | ⟨piece, pieces⟩
    · exact absurd rfl hpieces
    obtain ⟨pieces', hnonempty', hflatten, hrecv⟩ :=
      recv_pieces (cap - text.length) socket hnonempty
    cases hbytes : piece.take (cap - text.length) with
    | nil =>
      rw [List.take_eq_nil_iff] at hbytes
      rcases hbytes with hroom | rfl
      · omega
      · simp at hnonempty
    | cons x xs =>
      have hle := length_recv_le hrecv
      rw [hbytes] at hrecv hflatten hle
      have htext' : (text ++ x :: xs) ++ pieces'.flatten = c.bytes := by
        rw [List.append_assoc, hflatten, htext]
      have hready : Ready before (grow cap (text ++ x :: xs).length) (text ++ x :: xs) ↔
          text ++ x :: xs = c.bytes := ready_iff ⟨_, htext'⟩ (by simp)
      rw [frame_of_cons hrecv]
      rcases eq_or_ne pieces' [] with rfl | hmore
      · rw [List.flatten_nil, List.append_nil] at htext'
        rw [if_pos (hready.mpr htext'), htext']
        exact ⟨_, rfl⟩
      · have hend : text ++ x :: xs ≠ c.bytes := by
          intro heq
          rw [heq, List.append_right_eq_self, List.flatten_eq_nil_iff] at htext'
          obtain ⟨p, hp⟩ := List.exists_mem_of_ne_nil _ hmore
          exact hnonempty' (htext' p hp ▸ hp)
        rw [if_neg (mt hready.mp hend)]
        refine ih _ ?_ htext' hnonempty' hmore (lt_grow (by omega) ?_) rfl
        · have hlen := congrArg List.length hflatten
          rw [hn, List.length_append, List.length_cons] at hlen
          omega
        · rw [List.length_append]
          omega

end Sending

/-! ## One round -/

def View.respond (v : View) : View := { v with sent := v.sent ++ [v.state] }

def View.parse (v : View) (c : Sending) : View :=
  match c.word with
  | .user => { v with state := .challengePassword, login := c.arg }
  | .pass => { v with state := .invalidLogin, password := c.arg }

variable {s s' : Session} {socket : List Arrival} {ops : List Op}

theorem step_timeouts (before : Nat → UInt8) (n : Nat) (hpc : s.pc = .receive)
    (hsocket : s.socket = List.replicate n .timeout ++ socket) :
    ∃ size, (step before)^[n] s =
      { s with socket, data := { s.data with bufferSize := size } } := by
  induction n generalizing s with
  | zero =>
    refine ⟨s.data.bufferSize, ?_⟩
    rw [Function.iterate_zero_apply, ← hsocket.trans (List.nil_append _)]
  | succ n ih =>
    have hstep : step before s =
        { s with
          socket := List.replicate n .timeout ++ socket
          data := { s.data with bufferSize := 0 } } := by
      simp [step, hpc, receive, hsocket, List.replicate_succ]
    rw [Function.iterate_succ_apply, hstep]
    exact ih hpc rfl

namespace Sending

theorem length_text (c : Sending) : c.word.text.length = 5 := by cases c.word <;> rfl

theorem length_body (c : Sending) : (c.word.text ++ c.arg).length = 5 + c.arg.length := by
  rw [List.length_append, length_text]

/-- The operations of `parseCommand` for a command. -/
def parseOps (c : Sending) (size : Nat) : List Op :=
  [.access 0 (5 + c.arg.length + 2) size, .access 0 5 size, .access 5 c.arg.length size]

theorem parseCommand_eq (c : Sending) (hbuffer : s.data.buffer = c.bytes ++ text) :
    (parseCommand s).view = s.view.parse c ∧
      (parseCommand s).socket = s.socket ∧
      (parseCommand s).data.buffer = s.data.buffer ∧
      (parseCommand s).ops = s.ops ++ c.parseOps s.data.buffer.length := by
  have hstrstr : strstr s.data.buffer = some (5 + c.arg.length) := by
    rw [hbuffer, bytes, strstr_append c.noNul c.noCrlf, length_body]
  have htake : s.data.buffer.take 5 = c.word.text := by
    rw [hbuffer, bytes, List.append_assoc, List.append_assoc, ← c.length_text, List.take_left]
  have harg : (s.data.buffer.take (5 + c.arg.length)).drop 5 = c.arg := by
    have hbody : s.data.buffer.take (5 + c.arg.length) = c.word.text ++ c.arg := by
      rw [hbuffer, bytes, List.append_assoc, ← length_body, List.take_left]
    rw [hbody, ← c.length_text, List.drop_left]
  have hcount : strstrCount s.data.buffer = 5 + c.arg.length + 2 := by rw [strstrCount, hstrstr]
  have hcopy : copyCount s.data.buffer (5 + c.arg.length) = c.arg.length := by
    rw [copyCount, if_pos (Nat.le_add_right ..), Nat.add_sub_cancel_left]
  have hpass : FtpSession.pass ≠ FtpSession.user := by decide
  cases hw : c.word with
  | user =>
    rw [hw, Word.text] at htake
    simp [parseCommand, hstrstr, htake, harg, hcount, hcopy, hw, Session.record, Session.view,
      View.parse, parseOps]
  | pass =>
    rw [hw, Word.text] at htake
    simp [parseCommand, hstrstr, htake, harg, hcount, hcopy, hw, Session.record, Session.view,
      View.parse, parseOps, hpass]

theorem parseOps_defined {op : Op} (c : Sending) (hsize : c.bytes.length ≤ size)
    (hop : op ∈ c.parseOps size) : op.Defined := by
  rw [bytes, List.length_append, length_body] at hsize
  have hcrlf : crlf.length = 2 := rfl
  revert op
  simp only [parseOps, List.forall_mem_cons, Op.defined_access]
  refine ⟨by omega, by omega, by omega, by simp⟩

end Sending

/-- A session that is about to ask for a command. -/
structure Asks (s : Session) : Prop where
  pc : s.pc = .head
  known : s.data.state ≠ .unknown
  valid : s.data.state ≠ .invalidLogin
  size_le : defaultSize ≤ s.data.buffer.length

/-- The command `c` has been answered between `s` and `s'`. -/
structure Served (c : Sending) (socket : List Arrival) (s s' : Session) : Prop where
  pc : s'.pc = .head
  view : s'.view = s.view.respond.parse c
  socket_eq : s'.socket = socket
  size_le : defaultSize ≤ s'.data.buffer.length
  ops : ∃ ops, s'.ops = s.ops ++ ops ∧ ((∀ op ∈ ops, op.Defined) ↔ c.Fits)

theorem step_head (before : Nat → UInt8) (h : Asks s) :
    step before s = { sendResponse s with pc := .receive } := by
  rw [step, h.pc]
  simp only [if_neg h.known, if_neg h.valid]

/-- `receive` on the pieces of a command. -/
theorem receive_pieces (before : Nat → UInt8)
    (hsize : defaultSize ≤ s.data.buffer.length)
    (hsocket : s.socket = c.pieces.flatMap pending ++ socket) :
    ∃ cap ops, c.bytes.length < cap ∧ s.data.buffer.length ≤ cap ∧
      receive before s =
        (0, s.collected s.data.buffer ⟨0, cap, c.bytes, socket⟩ ops) ∧
      ((∀ op ∈ ops, op.Defined) ↔ c.Fits) := by
  obtain ⟨piece, pieces, hpieces⟩ : ∃ piece pieces, c.pieces = piece :: pieces := by
    refine List.exists_cons_of_ne_nil fun hnil => ?_
    have hflatten := c.flatten_pieces
    rw [hnil] at hflatten
    simp [crlf] at hflatten
  have hnonempty := c.nonempty
  rw [hpieces] at hnonempty hsocket
  have hpos : 0 < s.data.buffer.length := Nat.lt_of_lt_of_le (by decide) hsize
  have htext : [] ++ (piece :: pieces).flatten = c.bytes := by
    rw [List.nil_append, ← hpieces, c.flatten_pieces, Sending.bytes]
  obtain ⟨cap, hframe⟩ :=
    c.exists_frame before socket htext hnonempty (List.cons_ne_nil piece pieces) hpos
  obtain ⟨x, xs, rfl⟩ : ∃ x xs, piece = x :: xs :=
    List.exists_cons_of_ne_nil fun hnil => hnonempty (hnil ▸ List.mem_cons_self)
  obtain ⟨ops, hops, hreceive⟩ := exists_receive_segment before hpos hsocket
  rw [hsocket, hframe] at hops hreceive
  refine ⟨cap, ops, hops.text_lt, hops.le_cap, hreceive, ?_⟩
  rw [hops.defined_iff (by decide), Sending.Fits, hpieces]
  refine and_congr_right fun _ => ?_
  obtain ⟨pieces', -, -, hrecv⟩ := recv_pieces s.cleared.room socket hnonempty
  have hsocket' : s.cleared.socket = ((x :: xs) :: pieces).flatMap pending ++ socket := hsocket
  rw [hsocket', hrecv]
  have hlen : ([] ++ (x :: xs).take s.cleared.room).length =
      min s.data.buffer.length (x :: xs).length := List.length_take
  have hdefault : defaultSize = 16 := rfl
  constructor
  · rintro hread piece' hhead
    obtain rfl := Option.some.inj hhead
    have hne : (x :: xs).take s.cleared.room ≠ [] := by
      intro hnil
      rcases List.take_eq_nil_iff.mp hnil with hroom | hcons
      · exact Nat.ne_of_gt hpos hroom
      · exact List.cons_ne_nil x xs hcons
    have htwo := hread _ _ hne rfl
    omega
  · rintro hfirst bytes socket' - heq
    obtain ⟨hbytes, -⟩ := Prod.mk.inj heq
    have htwo := hfirst (x :: xs) rfl
    rw [← Option.some.inj hbytes]
    omega

/-- From the head of the loop to the first piece. -/
theorem exists_receive (before : Nat → UInt8) (h : Asks s)
    (hsocket : s.socket = c.arrivals ++ socket) :
    ∃ k s', (step before)^[k] s = s' ∧ s'.pc = .receive ∧ s'.view = s.view.respond ∧
      s'.socket = c.pieces.flatMap pending ++ socket ∧ s'.data.buffer = s.data.buffer ∧
      s'.ops = s.ops := by
  have hsplit : ({ sendResponse s with pc := .receive } : Session).socket =
      List.replicate c.waits .timeout ++ (c.pieces.flatMap pending ++ socket) := by
    rw [← List.append_assoc]
    exact hsocket
  obtain ⟨size, hwaits⟩ := step_timeouts before c.waits rfl hsplit
  have hrun := (congrArg (step before)^[c.waits] (step_head before h)).trans hwaits
  exact ⟨c.waits + 1, _, hrun, rfl, rfl, rfl, rfl, rfl⟩

/-- From the first piece to the head of the loop. -/
theorem step_step_pieces (before : Nat → UInt8) (hpc : s.pc = .receive)
    (hsize : defaultSize ≤ s.data.buffer.length)
    (hsocket : s.socket = c.pieces.flatMap pending ++ socket) :
    ∃ s', (step before)^[2] s = s' ∧ s'.pc = .head ∧ s'.view = s.view.parse c ∧
      s'.socket = socket ∧ defaultSize ≤ s'.data.buffer.length ∧
      ∃ ops, s'.ops = s.ops ++ ops ∧ ((∀ op ∈ ops, op.Defined) ↔ c.Fits) := by
  obtain ⟨cap, ops, hlt, hle, hreceive, hops⟩ := receive_pieces before hsize hsocket
  have hstep : step before s =
      { s.collected s.data.buffer ⟨0, cap, c.bytes, socket⟩ ops with pc := .parse } := by
    simp [step, hpc, hreceive]
  have hlength : (layer s.data.buffer cap c.bytes).length = cap :=
    length_layer (Nat.le_of_lt hlt) hle
  obtain ⟨hview, hsocket', hbuffer, hparse⟩ := c.parseCommand_eq
    (s := { s.collected s.data.buffer ⟨0, cap, c.bytes, socket⟩ ops with pc := .parse }) rfl
  refine ⟨_, rfl, ?_⟩
  rw [Function.iterate_succ_apply, Function.iterate_one, hstep]
  refine ⟨rfl, hview, hsocket', ?_, ops ++ c.parseOps cap, ?_, ?_⟩
  · refine Nat.le_trans hsize (Nat.le_trans hle (Nat.le_of_eq ?_))
    exact (hlength.symm.trans (congrArg List.length hbuffer).symm)
  · refine hparse.trans ?_
    rw [← List.append_assoc]
    exact congrArg (fun size => s.ops ++ ops ++ c.parseOps size) hlength
  · rw [List.forall_mem_append, hops]
    exact and_iff_left fun op hop => c.parseOps_defined (Nat.le_of_lt hlt) hop

theorem exists_serve (before : Nat → UInt8) (h : Asks s)
    (hsocket : s.socket = c.arrivals ++ socket) :
    ∃ k, Served c socket s ((step before)^[k] s) := by
  obtain ⟨k, s₁, hs₁, hpc₁, hview₁, hsocket₁, hbuffer₁, hops₁⟩ :=
    exists_receive before h hsocket
  obtain ⟨s', hs', hpc, hview, hsocket', hsize, ops, hops, hdefined⟩ :=
    step_step_pieces before hpc₁ (by rw [hbuffer₁]; exact h.size_le) hsocket₁
  refine ⟨2 + k, ?_⟩
  rw [Function.iterate_add_apply, hs₁, hs']
  exact ⟨hpc, by rw [hview, hview₁], hsocket', hsize, ops, by rw [hops, hops₁], hdefined⟩

/-! ## A conversation -/

def View.run (v : View) (cs : List Sending) : View := cs.foldl (fun v c => v.respond.parse c) v

/-- Nothing is read any more: the login was refused, or the client has closed. -/
def Over (s : Session) : Prop :=
  s.pc = .done ∨ s.pc = .head ∧ s.data.state = .invalidLogin ∨
    s.socket = [] ∧ (s.pc = .receive ∨ Asks s)

/-- The commands `cs` have been answered between `s` and `s'`. -/
structure ServedAll (cs : List Sending) (s s' : Session) : Prop where
  pc : s'.pc = .head
  view : s'.view = s.view.run cs
  ops : ∃ ops, s'.ops = s.ops ++ ops ∧ ((∀ op ∈ ops, op.Defined) ↔ ∀ c ∈ cs, c.Fits)

theorem ServedAll.nil (hpc : s.pc = .head) : ServedAll [] s s where
  pc := hpc
  view := rfl
  ops := ⟨[], by simp, by simp⟩

theorem ServedAll.cons {cs : List Sending} {s₁ : Session} (h : Served c socket s s₁)
    (hall : ServedAll cs s₁ s') : ServedAll (c :: cs) s s' := by
  obtain ⟨ops₁, hops₁, hdefined₁⟩ := h.ops
  obtain ⟨ops, hops, hdefined⟩ := hall.ops
  refine ⟨hall.pc, by rw [hall.view, h.view]; rfl, ops₁ ++ ops, ?_, ?_⟩
  · rw [hops, hops₁, List.append_assoc]
  · rw [List.forall_mem_append, hdefined₁, hdefined, List.forall_mem_cons]

theorem Served.asks (h : Served c socket s s') (hw : c.word = .user) : Asks s' := by
  have hstate := congrArg View.state h.view
  rw [View.parse, hw] at hstate
  replace hstate : s'.data.state = .challengePassword := hstate
  exact ⟨h.pc, by rw [hstate]; decide, by rw [hstate]; decide, h.size_le⟩

theorem exists_servedAll {cs : List Sending} (before : Nat → UInt8) (n : Nat) (h : Asks s)
    (hsocket : s.socket = arrivals cs) (hn : n ≤ (heard cs).length) :
    ∃ k, ServedAll ((heard cs).take n) s ((step before)^[k] s) ∧
      (n = (heard cs).length → Over ((step before)^[k] s)) := by
  induction cs generalizing s n with
  | nil =>
    refine ⟨0, ?_, fun _ => .inr (.inr ⟨hsocket, .inr h⟩)⟩
    rw [heard, List.take_nil]
    exact .nil h.pc
  | cons c cs ih =>
    cases n with
    | zero =>
      refine ⟨0, .nil h.pc, fun hzero => ?_⟩
      rw [heard] at hzero
      split at hzero <;> simp at hzero
    | succ n =>
      obtain ⟨k₁, hserved⟩ := exists_serve before h hsocket
      cases hw : c.word with
      | user =>
        have hheard : heard (c :: cs) = c :: heard cs := by simp [heard, hw]
        rw [hheard, List.length_cons] at hn
        obtain ⟨k, hall, hover⟩ :=
          ih n (hserved.asks hw) hserved.socket_eq (Nat.le_of_succ_le_succ hn)
        refine ⟨k + k₁, ?_⟩
        rw [hheard, List.take_succ_cons, List.length_cons, Nat.succ_inj,
          Function.iterate_add_apply]
        exact ⟨.cons hserved hall, hover⟩
      | pass =>
        have hheard : heard (c :: cs) = [c] := by simp [heard, hw]
        have hstate := congrArg View.state hserved.view
        rw [View.parse, hw] at hstate
        refine ⟨k₁, ?_, fun _ => .inr (.inl ⟨hserved.pc, hstate⟩)⟩
        rw [hheard, List.take_succ_cons, List.take_nil]
        exact .cons hserved (.nil hserved.pc)

/-! ## The whole run -/

theorem ops_parseCommand_isPrefix (s : Session) : s.ops <+: (parseCommand s).ops := by
  rw [parseCommand]
  cases strstr s.data.buffer with
  | none => simp [Session.record]
  | some i =>
    simp only [Session.record]
    split_ifs <;> simp [List.append_assoc]

theorem ops_step_isPrefix (before : Nat → UInt8) (s : Session) : s.ops <+: (step before s).ops := by
  cases hpc : s.pc with
  | head =>
    simp only [step, hpc, sendResponse]
    split_ifs <;> exact List.prefix_rfl
  | receive =>
    have hreceive : s.ops <+: (receive before s).2.ops := by
      cases hsocket : s.socket with
      | nil => simp [receive, hsocket]
      | cons a socket =>
        cases a with
        | timeout => simp [receive, hsocket]
        | error => simp [receive, hsocket]
        | segment x xs =>
          simp only [receive, hsocket]
          exact ops_fill_isPrefix before
            { s with
              data := { s.data with bufferSize := 0 }
              socket := .segment x xs :: socket }
    simp only [step, hpc]
    split_ifs <;> exact hreceive
  | parse =>
    simp only [step, hpc]
    exact ops_parseCommand_isPrefix s
  | done =>
    simp only [step, hpc]
    exact List.prefix_rfl

theorem ops_iterate_isPrefix (before : Nat → UInt8) (s : Session) (k : Nat) :
    s.ops <+: ((step before)^[k] s).ops := by
  induction k with
  | zero => exact List.prefix_rfl
  | succ k ih =>
    rw [Function.iterate_succ_apply']
    exact ih.trans (ops_step_isPrefix ..)

theorem Over.step (h : Over s) (before : Nat → UInt8) :
    Over (step before s) ∧ (step before s).ops = s.ops := by
  rcases h with hdone | ⟨hpc, hlogin⟩ | ⟨hsocket, hpc | hasks⟩
  · have hstep : FtpSession.step before s = s := by rw [FtpSession.step, hdone]
    rw [hstep]
    exact ⟨.inl hdone, rfl⟩
  · have hstep : FtpSession.step before s = { sendResponse s with pc := .done } := by
      simp [FtpSession.step, hpc, hlogin]
    rw [hstep]
    exact ⟨.inl rfl, rfl⟩
  · have hstep : FtpSession.step before s =
        { s with data := { s.data with bufferSize := 0 } } := by
      simp [FtpSession.step, hpc, receive, hsocket]
    rw [hstep]
    exact ⟨.inr (.inr ⟨hsocket, .inl hpc⟩), rfl⟩
  · rw [step_head before hasks]
    exact ⟨.inr (.inr ⟨hsocket, .inl rfl⟩), rfl⟩

theorem Over.iterate (h : Over s) (before : Nat → UInt8) (k : Nat) :
    Over ((FtpSession.step before)^[k] s) ∧ ((FtpSession.step before)^[k] s).ops = s.ops := by
  induction k with
  | zero => exact ⟨h, rfl⟩
  | succ k ih =>
    rw [Function.iterate_succ_apply']
    exact ⟨(ih.1.step before).1, (ih.1.step before).2.trans ih.2⟩

theorem asks_start (socket : List Arrival) : Asks (start socket) :=
  ⟨rfl, by simp [start], by simp [start], by simp [start]⟩

theorem heard_map_whole (cs : List Sending) :
    heard (cs.map Sending.whole) = (heard cs).map Sending.whole := by
  induction cs with
  | nil => rfl
  | cons c cs ih =>
    simp only [List.map_cons, heard, ih, Sending.whole]
    split <;> rfl

theorem View.run_map_whole (cs : List Sending) (v : View) :
    v.run (cs.map Sending.whole) = v.run cs := by
  rw [run, List.foldl_map]
  rfl

theorem View.length_sent_run (cs : List Sending) (v : View) :
    (v.run cs).sent.length = v.sent.length + cs.length := by
  induction cs generalizing v with
  | nil => rfl
  | cons c cs ih =>
    have hlen : (v.respond.parse c).sent.length = v.sent.length + 1 := by
      rw [View.parse]
      cases c.word <;> simp [View.respond]
    rw [View.run, List.foldl_cons, ← View.run, ih, hlen, List.length_cons]
    omega

theorem exists_answered {cs : List Sending} (before : Nat → UInt8) (hn : n ≤ (heard cs).length) :
    Answered before (arrivals cs) n ((start []).view.run ((heard cs).take n)) := by
  obtain ⟨k, hall, -⟩ := exists_servedAll before n (asks_start (arrivals cs)) rfl hn
  refine ⟨k, hall.pc, hall.view, ?_⟩
  rw [View.length_sent_run, List.length_take, Nat.min_eq_left hn]
  exact Nat.zero_add n

theorem SegmentationIndependent.fits {cs : List Sending} (h : SegmentationIndependent before cs) :
    ∀ c ∈ heard cs, c.Fits := by
  obtain ⟨k, hall, -⟩ :=
    exists_servedAll before _ (asks_start (arrivals cs)) rfl (Nat.le_refl _)
  obtain ⟨ops, hops, hdefined⟩ := hall.ops
  rw [List.take_length] at hdefined
  have hsafe := h.2 k
  rw [hops] at hsafe
  exact hdefined.mp fun op hop => hsafe op (List.mem_append_right _ hop)

/-- A conversation does not depend on the pieces, with every access inside of the buffer, if and
only if no command is answered whose first piece is a single byte or which overflows the `int`. -/
theorem segmentationIndependent_iff (before : Nat → UInt8) (cs : List Sending) :
    SegmentationIndependent before cs ↔ ∀ c ∈ heard cs, c.Fits := by
  refine ⟨SegmentationIndependent.fits, fun hfits =>
    ⟨fun n hn => ⟨_, exists_answered before hn, ?_⟩, fun j op hop => ?_⟩⟩
  · have hmap : n ≤ (heard (cs.map Sending.whole)).length := by
      rwa [heard_map_whole, List.length_map]
    have hwhole := exists_answered before hmap
    rwa [heard_map_whole, ← List.map_take, View.run_map_whole] at hwhole
  · obtain ⟨k, hall, hover⟩ :=
      exists_servedAll before _ (asks_start (arrivals cs)) rfl (Nat.le_refl _)
    obtain ⟨ops, hops, hdefined⟩ := hall.ops
    rw [List.take_length] at hdefined
    replace hops : ((step before)^[k] (start (arrivals cs))).ops = ops := hops
    refine hdefined.mpr hfits op ?_
    rw [← hops]
    rcases Nat.le_total j k with hle | hle
    · obtain ⟨m, rfl⟩ := Nat.exists_eq_add_of_le hle
      rw [Nat.add_comm, Function.iterate_add_apply]
      exact (ops_iterate_isPrefix before _ m).subset hop
    · obtain ⟨m, rfl⟩ := Nat.exists_eq_add_of_le hle
      rw [Nat.add_comm, Function.iterate_add_apply, ((hover rfl).iterate before m).2] at hop
      exact hop

/-- `USER a`, the first byte on its own. -/
def splitUser : Sending where
  word := .user
  arg := [97]
  waits := 0
  pieces := [[85], [83, 69, 82, 32, 97, 13, 10]]
  noNul := by decide
  noCrlf := by decide
  flatten_pieces := rfl
  nonempty := by decide

theorem not_segmentationIndependent_splitUser :
    ¬ SegmentationIndependent (fun _ => 0) [splitUser] := by
  intro h
  have hfits : splitUser.Fits := h.fits splitUser (List.mem_singleton_self _)
  exact absurd (hfits.2 [85] rfl) (by decide)

end FtpSession
