import FitProjects.Lib.CString
import FitProjects.Lib.Loop
import Mathlib.Algebra.Group.Nat.Defs

/-! # An FTP session of the honeypot

`startCommunication` answers a client until it has sent a `PASS` or something unknown: it sends the
response of the state, calls `receive` until that returns 0, and parses what the buffer holds. The
buffer of a session is kept from one command to the next and is never cleared; its capacity is its
size, both double when a read has filled it. `stopFlag` stays 0, and the address and the time,
which only the log line needs, are left out.

The session keeps a record of its accesses to the buffer and of the sums that `bufferSize` has to
hold. A read outside of the buffer finds an arbitrary byte, `before n` in front of a buffer of `n`
bytes. -/

namespace FtpSession

inductive States | readyNewUser | challengePassword | invalidLogin | unknown
  deriving DecidableEq, Repr

/-- `struct Data` -/
structure Data where
  bufferSize : Nat
  password : List UInt8
  state : States
  login : List UInt8
  buffer : List UInt8
  deriving DecidableEq, Repr

/-- What becomes of the socket next: nothing arrives before `select` times out, bytes arrive, or
`recv` fails. After the last arrival the client has closed the connection. -/
inductive Arrival
  | timeout
  | segment (c : UInt8) (bytes : List UInt8)
  | error
  deriving DecidableEq, Repr

/-- The number of bytes that have not been received. -/
def unread : List Arrival → Nat
  | [] => 0
  | .segment _ bytes :: socket => bytes.length + 1 + unread socket
  | .timeout :: socket | .error :: socket => unread socket

/-- A segment, unless there are no bytes. -/
def pending : List UInt8 → List Arrival
  | [] => []
  | c :: bytes => [.segment c bytes]

/-- `recv`: up to `room` bytes of one segment, none at the end of the stream; `none` is an error. -/
def recv (room : Nat) : List Arrival → Option (List UInt8) × List Arrival
  | [] => (some [], [])
  | .timeout :: socket => recv room socket
  | .segment c bytes :: socket =>
    (some ((c :: bytes).take room), pending ((c :: bytes).drop room) ++ socket)
  | .error :: socket => (none, socket)

/-- An access to `count` bytes from `index` on of a buffer of `size` bytes, or a new value of
`bufferSize`. -/
inductive Op
  | access (index : Int) (count size : Nat)
  | add (sum : Nat)
  deriving DecidableEq, Repr

/-- The access is inside of the buffer, the sum fits into an `int`. -/
def Op.Defined : Op → Prop
  | access index count size => 0 ≤ index ∧ index + count ≤ size
  | add sum => sum < 2 ^ 31

@[simp] theorem Op.defined_access :
    (access index count size).Defined ↔ 0 ≤ index ∧ index + count ≤ size := .rfl

@[simp] theorem Op.defined_add : (add sum).Defined ↔ sum < 2 ^ 31 := .rfl

/-- Where `startCommunication` is: at the test of its loop, in `receive`, before `parseCommand`, or
behind the loop. -/
inductive Pc | head | receive | parse | done
  deriving DecidableEq, Repr

/-- A session: the states whose response has been sent, and what the buffer has been used for. -/
structure Session where
  pc : Pc
  data : Data
  socket : List Arrival
  sent : List States
  ops : List Op
  deriving DecidableEq, Repr

def defaultSize : Nat := 16

/-- The session of a new connection. -/
def start (socket : List Arrival) : Session :=
  ⟨.head, ⟨0, [], .readyNewUser, [], List.replicate defaultSize 0⟩, socket, [], []⟩

def Session.record (s : Session) (ops : List Op) : Session := { s with ops := s.ops ++ ops }

/-! ## Receiving -/

/-- Bytes behind those that have been received. -/
def Data.store (d : Data) (bytes : List UInt8) : Data :=
  let size := d.bufferSize + bytes.length
  let buffer := d.buffer.take d.bufferSize ++ bytes ++ d.buffer.drop size
  let buffer :=
    if d.buffer.length ≤ size then buffer ++ List.replicate d.buffer.length 0 else buffer
  { d with buffer, bufferSize := size }

def Session.store (s : Session) (bytes : List UInt8) : Session :=
  { s with data := s.data.store bytes }.record
    [.access s.data.bufferSize bytes.length s.data.buffer.length,
      .add (s.data.bufferSize + bytes.length)]

variable (before : Nat → UInt8)

/-- `data.buffer[i]` -/
def Data.get (d : Data) (i : Int) : UInt8 :=
  if i < 0 then before d.buffer.length else d.buffer.getD i.toNat 0

/-- Do the last two bytes end a command? The second is not read unless the first is a carriage
return. -/
def isReadyToParse (d : Data) : Bool × List Op :=
  let i : Int := d.bufferSize - 2
  let j : Int := d.bufferSize - 1
  if d.get before i = 13 then
    (d.get before j = 10, [.access i 1 d.buffer.length, .access j 1 d.buffer.length])
  else (false, [.access i 1 d.buffer.length])

theorem unread_pending (bytes : List UInt8) (socket : List Arrival) :
    unread (pending bytes ++ socket) = bytes.length + unread socket := by
  cases bytes with
  | nil => simp [pending]
  | cons c bytes => rfl

theorem unread_recv_lt {c : UInt8} {bytes : List UInt8} {socket socket' : List Arrival}
    (h : recv room socket = (some (c :: bytes), socket')) : unread socket' < unread socket := by
  induction socket with
  | nil => simp [recv] at h
  | cons a socket ih =>
    cases a with
    | timeout => exact ih h
    | segment d rest =>
      obtain ⟨htake, rfl⟩ := Prod.mk.inj h
      have hlen := congrArg List.length (Option.some.inj htake)
      rw [unread_pending, List.length_drop, unread]
      simp only [List.length_take, List.length_cons] at hlen ⊢
      omega
    | error => simp [recv] at h

/-- The loop of `receive`. -/
def fill (s : Session) : Nat × Session :=
  match _h : recv (s.data.buffer.length - s.data.bufferSize) s.socket with
  | (none, socket) => (2, { s with socket })
  | (some [], socket) => (0, { s with socket })
  | (some (c :: bytes), socket) =>
    let s' := { s with socket }.store (c :: bytes)
    let (ready, ops) := isReadyToParse before s'.data
    if ready then (0, s'.record ops) else fill (s'.record ops)
termination_by unread s.socket
decreasing_by exact unread_recv_lt _h

/-- 0 when there is something to parse, 1 when `select` has timed out or there is nothing to read
although the socket is readable, 2 when `recv` has failed. -/
def receive (s : Session) : Nat × Session :=
  let s := { s with data := { s.data with bufferSize := 0 } }
  match s.socket with
  | [] | .error :: _ => (1, s)
  | .timeout :: socket => (1, { s with socket })
  | .segment .. :: _ => fill before s

/-! ## Parsing -/

/-- The bytes that end a command. -/
def crlf : List UInt8 := [13, 10]

def user : List UInt8 := [85, 83, 69, 82, 32]

def pass : List UInt8 := [80, 65, 83, 83, 32]

/-- `strstr(s, "\r\n")`, as an index. -/
def strstr : List UInt8 → Option Nat
  | [] => none
  | c :: s => if c = 0 then none else if crlf <+: c :: s then some 0 else (strstr s).map (· + 1)

/-- What is read for `strstr`: the buffer up to its first NUL or up to the end of a command. -/
def strstrCount (buffer : List UInt8) : Nat :=
  match strstr buffer with
  | none => (cstring buffer).length + 1
  | some i => i + 2

/-- The number of bytes that are copied from the sixth on; the loop leaves the buffer unless it
meets `i`. -/
def copyCount (buffer : List UInt8) (i : Nat) : Nat := if 5 ≤ i then i - 5 else buffer.length

def parseCommand (s : Session) : Session :=
  let buffer := s.data.buffer
  let s := s.record [.access 0 (strstrCount buffer) buffer.length]
  match strstr buffer with
  | none => s
  | some i =>
    let text := (buffer.take i).drop 5
    let s := s.record [.access 0 5 buffer.length]
    if buffer.take 5 = user then
      { s with data := { s.data with state := .challengePassword, login := text } }.record
        [.access 5 (copyCount buffer i) buffer.length]
    else if buffer.take 5 = pass then
      { s with data := { s.data with state := .invalidLogin, password := text } }.record
        [.access 5 (copyCount buffer i) buffer.length]
    else { s with data := { s.data with state := .unknown } }

/-! ## The session -/

def sendResponse (s : Session) : Session := { s with sent := s.sent ++ [s.data.state] }

/-- A pass over one part of the loop of `startCommunication`. -/
def step (s : Session) : Session :=
  match s.pc with
  | .head =>
    if s.data.state = .unknown then { s with pc := .done }
    else if s.data.state = .invalidLogin then { sendResponse s with pc := .done }
    else { sendResponse s with pc := .receive }
  | .receive =>
    let (r, s) := receive before s
    -- `while (receive() != 0);` leaves nothing to the test for an error
    if r ≠ 0 then s else if r = 2 then { s with pc := .done } else { s with pc := .parse }
  | .parse => { parseCommand s with pc := .head }
  | .done => s

def startCommunication (fuel : Nat) (s : Session) : Option Session :=
  loop (·.pc ≠ .done) (fun s => some (step before s)) fuel s

end FtpSession
