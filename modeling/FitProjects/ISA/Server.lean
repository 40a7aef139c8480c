import FitProjects.Lib.System
import Mathlib.Algebra.Group.Nat.Defs

/-! # The accept loop of the honeypot servers

`FTPServer::run` and `SSHServer::run` are one loop: wait for a client, accept it, count it, and
either refuse it at once or serve it in a thread of its own. What the servers differ in is the
order in which a connection is closed and taken off the count, and what a failed `accept` does
(`ServerCode`). A step is one action of the accepting thread or of one client thread, or the signal
that sets `stopFlag`. -/

namespace Honeypot

/-- What is done with an accepted connection. `serve` stands for `startCommunication`, or for the
key exchange and `auth`; it ends at any time. -/
inductive Action | serve | close | disconnect | free | decConnections
  deriving DecidableEq, Repr

/-- A connection and what remains to be done with it. -/
structure Session where
  conn : Nat
  rest : List Action
  once : rest.count .decConnections ≤ 1

/-- What is done with a refused connection, what a client thread does, and whether the loop ends
when a connection could not be accepted. -/
structure ServerCode where
  refused : List Action
  served : List Action
  breaks : Bool
  refused_once : refused.count .decConnections = 1
  served_once : served.count .decConnections = 1

/-- `FTPServer`; `closeConnection` closes the socket and then decrements. -/
def ftpServer : ServerCode where
  refused := [.close, .decConnections]
  served := [.serve, .close, .decConnections]
  breaks := true
  refused_once := rfl
  served_once := rfl

/-- `SSHServer` -/
def sshServer : ServerCode where
  refused := [.disconnect, .free, .decConnections]
  served := [.serve, .decConnections, .free]
  breaks := false
  refused_once := rfl
  served_once := rfl

/-- `_maxClients`, and the number of threads that can run at a time. -/
structure Limits where
  maxClients : Nat
  threads : Nat
  threads_lt : threads + 1 < 2 ^ 32

/-- Where the accepting thread is. -/
inductive MainPc
  | loop
  | select
  | accept
  | inc (conn : Nat)
  | refuse (x : Session)
  | spawn (conn : Nat)
  | join (i : Nat)
  | finished

/-- The state of a server. `accepted` counts the accepted connections, and `log` holds those whose
decrement has run. -/
structure State where
  connections : Nat
  stopFlag : Bool
  main : MainPc
  threads : List Session
  accepted : Nat
  log : List Nat

/-- `++_connections > _maxClients` -/
def incConnections (maxClients connections : Nat) : Nat × Bool :=
  let n := (connections + 1) % 2 ^ 32
  (n, n > maxClients)

/-- `_connections--` -/
def decConnections (connections : Nat) : Nat := (connections + (2 ^ 32 - 1)) % 2 ^ 32

/-- The next action of a session. -/
def Session.next : Session → Option (Action × Session)
  | ⟨_, [], _⟩ => none
  | ⟨conn, a :: rest, h⟩ => some (a, ⟨conn, rest, Nat.le_trans List.count_le_count_cons h⟩)

/-- Carry out an action for a connection. -/
def State.perform (s : State) (a : Action) (conn : Nat) : State :=
  if a = .decConnections then
    { s with connections := decConnections s.connections, log := s.log ++ [conn] }
  else s

/-- How a call of `select` or `accept` ends. -/
inductive Outcome | error | timeout | ready
  deriving DecidableEq, Repr

/-- Who takes the next step. -/
inductive Event
  | signal
  | main (o : Outcome)
  | client (i : Nat)
  deriving DecidableEq, Repr

/-- The threads that have not returned. -/
def running (threads : List Session) : Nat := (threads.filter (·.rest ≠ [])).length

/-- One step of the accepting thread. -/
def mainStep (code : ServerCode) (lim : Limits) (s : State) (o : Outcome) : Option State :=
  match s.main with
  | .loop => some { s with main := if s.stopFlag then .join 0 else .select }
  | .select =>
    match o with
    | .error => some { s with main := .join 0 }
    | .timeout => some { s with main := if s.stopFlag then .join 0 else .loop }
    | .ready => some { s with main := .accept }
  | .accept =>
    match o with
    | .error => some { s with main := if code.breaks then .join 0 else .loop }
    | _ => some { s with main := .inc s.accepted, accepted := s.accepted + 1 }
  | .inc conn =>
    let (n, full) := incConnections lim.maxClients s.connections
    some { s with
      connections := n
      main :=
        if full then .refuse ⟨conn, code.refused, Nat.le_of_eq code.refused_once⟩
        else .spawn conn }
  | .refuse x =>
    match x.next with
    | none => some { s with main := .loop }
    | some (a, x') => some ({ s with main := .refuse x' }.perform a x.conn)
  | .spawn conn =>
    if running s.threads < lim.threads then
      some { s with
        main := .loop
        threads := s.threads ++ [⟨conn, code.served, Nat.le_of_eq code.served_once⟩] }
    else none
  | .join i =>
    match s.threads[i]? with
    | none => some { s with main := .finished }
    | some x => if x.rest = [] then some { s with main := .join (i + 1) } else none
  | .finished => none

/-- One step of a client thread. -/
def clientStep (s : State) (i : Nat) : Option State :=
  match s.threads[i]? with
  | none => none
  | some x =>
    match x.next with
    | none => none
    | some (a, x') => some ({ s with threads := s.threads.set i x' }.perform a x.conn)

/-- `run`, with any number of client threads. -/
def server (code : ServerCode) (lim : Limits) : System State Event where
  init := ⟨0, false, .loop, [], 0, []⟩
  step s
    | .signal => some { s with stopFlag := true }
    | .main o => mainStep code lim s o
    | .client i => clientStep s i

end Honeypot
