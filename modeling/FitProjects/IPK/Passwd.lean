import FitProjects.Lib.CString
import FitProjects.IPK.Packet

/-! # The passwd database

`Passwd` of `IPK/proj1`: the records of the server for a request. Strings of the database have no
NUL, a string that is looked up ends at its first NUL. -/

namespace RemotePasswd

/-- `Passwd::Flags` without `LOGIN_OR_UID`, in the order of the fields of a record. -/
inductive Flag
  | userName
  | uid
  | gid
  | name
  | homeFolder
  | shell
  deriving DecidableEq

namespace Flag

/-- All flags, in the order of the fields of a record. -/
def all : List Flag := [userName, uid, gid, name, homeFolder, shell]

/-- The values of `Passwd::Flags`. -/
def bit : Flag → UInt8
  | userName => 0x02
  | uid => 0x04
  | gid => 0x08
  | name => 0x10
  | homeFolder => 0x20
  | shell => 0x40

end Flag

/-- `LOGIN_OR_UID`. -/
def LOGIN_OR_UID : UInt8 := 0x01

/-- `NOT_FOUND_S`. -/
def NOT_FOUND_S : Str := ascii "@nf"

/-- `struct passwd`. -/
structure Entry where
  pw_name : Str
  pw_uid : Nat
  pw_gid : Nat
  pw_gecos : Str
  pw_dir : Str
  pw_shell : Str

/-- A number as `operator<<` prints it. -/
def decimal (n : Nat) : Str := (Nat.toDigits 10 n).map fun c => UInt8.ofNat c.toNat

/-- `tolower` in the C locale. -/
def tolower (c : UInt8) : UInt8 := if 65 ≤ c ∧ c ≤ 90 then c + 32 else c

/-- `strcasecmp(s, t) == 0`. -/
def strcasecmp (s t : Str) : Bool := (cstring s).map tolower = (cstring t).map tolower

namespace Passwd

/-- `AddToString` if the flag is set. -/
def addToString (flags : UInt8) (flag : Flag) (field string : Str) : Str :=
  if flags &&& flag.bit ≠ 0 then string ++ field ++ [DELIMETER] else string

/-- The record of `AddToRecords`. -/
def record (flags : UInt8) (pRecord : Entry) : Str :=
  let record := addToString flags .userName pRecord.pw_name []
  let record := addToString flags .uid (decimal pRecord.pw_uid) record
  let record := addToString flags .gid (decimal pRecord.pw_gid) record
  let record := addToString flags .name pRecord.pw_gecos record
  let record := addToString flags .homeFolder pRecord.pw_dir record
  addToString flags .shell pRecord.pw_shell record

/-- `my_getpwnam`: whether there is an entry, and the records that it adds. -/
def my_getpwnam (flags : UInt8) (name : Str) : List Entry → Bool × List Str
  | [] => (false, [])
  | ptr :: entries =>
    if strcasecmp name ptr.pw_name then (true, [record flags ptr])
    else my_getpwnam flags name entries

/-- `my_getpwuid`, which goes through all entries. -/
def my_getpwuid (flags : UInt8) (uid : Nat) : List Entry → Bool × List Str
  | [] => (false, [])
  | ptr :: entries =>
    let (found, records) := my_getpwuid flags uid entries
    if ptr.pw_uid = uid then (true, record flags ptr :: records) else (found, records)

/-- The records of one item, or `NOT_FOUND_S`. -/
def orNotFound (found : Bool × List Str) : List Str :=
  if found.1 then found.2 else found.2 ++ [NOT_FOUND_S]

/-- `loadRecordsByLogins`. -/
def loadRecordsByLogins (flags : UInt8) (db : List Entry) (logins : List Str) : List Str :=
  logins.flatMap fun login => orNotFound (my_getpwnam flags (cstring login) db)

/-- `loadRecordsByUIDs`. -/
def loadRecordsByUIDs (flags : UInt8) (db : List Entry) (uids : List Nat) : List Str :=
  uids.flatMap fun uid => orNotFound (my_getpwuid flags uid db)

end Passwd

/-! ## Answers -/

/-- The items of a request. -/
inductive Request
  | logins (logins : List Str)
  | uids (uids : List Nat)

/-- The entries that a request finds, item by item: the first one with the login, or all with the
uid, and `none` for an item without an entry. -/
def Request.answers (db : List Entry) : Request → List (Option Entry)
  | logins ls => ls.map fun login => db.find? fun e => strcasecmp login e.pw_name
  | uids us => us.flatMap fun uid =>
    match db.filter fun e => e.pw_uid = uid with
    | [] => [none]
    | found => found.map some

/-- A field of an entry. -/
def Entry.field (e : Entry) : Flag → Str
  | .userName => e.pw_name
  | .uid => decimal e.pw_uid
  | .gid => decimal e.pw_gid
  | .name => e.pw_gecos
  | .homeFolder => e.pw_dir
  | .shell => e.pw_shell

/-- The flags that are set, in the order of the fields of a record. -/
def requested (flags : UInt8) : List Flag := Flag.all.filter fun f => flags &&& f.bit ≠ 0

/-- The requested fields of an entry. -/
def Entry.fields (e : Entry) (flags : UInt8) : List Str := (requested flags).map e.field

variable {flags : UInt8} {db : List Entry} {e : Entry} {login s t : Str} {uid : Nat}

namespace Passwd

theorem addToString_eq (flags : UInt8) (f : Flag) (field string : Str) :
    addToString flags f field string =
      string ++ if flags &&& f.bit ≠ 0 then field ++ [DELIMETER] else [] := by
  rw [addToString]
  split
  · exact List.append_assoc _ _ _
  · exact (List.append_nil _).symm

theorem record_eq (flags : UInt8) (e : Entry) :
    record flags e = (e.fields flags).flatMap (· ++ [DELIMETER]) := by
  have hfilter (l : List Flag) :
      ((l.filter fun f => flags &&& f.bit ≠ 0).map e.field).flatMap (· ++ [DELIMETER]) =
        l.flatMap fun f => if flags &&& f.bit ≠ 0 then e.field f ++ [DELIMETER] else [] := by
    induction l with
    | nil => rfl
    | cons f l ih =>
      rw [List.flatMap_cons, ← ih, List.filter_cons]
      split <;> simp_all
  rw [Entry.fields, requested, hfilter]
  simp only [record, addToString_eq, Flag.all, List.flatMap_cons, List.flatMap_nil, Entry.field,
    List.nil_append, List.append_nil, List.append_assoc]

/-- The string in `m_records` for an answer. -/
def answerString (flags : UInt8) : Option Entry → Str
  | none => NOT_FOUND_S
  | some e => record flags e

theorem orNotFound_my_getpwnam (flags : UInt8) (name : Str) (db : List Entry) :
    orNotFound (my_getpwnam flags name db) =
      [answerString flags (db.find? fun e => strcasecmp name e.pw_name)] := by
  induction db with
  | nil => rfl
  | cons ptr db ih =>
    rw [my_getpwnam, List.find?_cons]
    split
    · rename_i hname
      rw [hname]
      rfl
    · rename_i hname
      rw [Bool.not_eq_true] at hname
      rw [ih, hname]

theorem loadRecordsByLogins_eq (flags : UInt8) (db : List Entry) (logins : List Str) :
    loadRecordsByLogins flags db logins =
      ((Request.logins logins).answers db).map (answerString flags) := by
  have hname (login s : Str) : strcasecmp (cstring login) s = strcasecmp login s := by
    rw [strcasecmp, strcasecmp, cstring, cstring, List.takeWhile_idem]
  simp only [loadRecordsByLogins, orNotFound_my_getpwnam, hname, Request.answers, List.map_map]
  exact List.flatMap_pure_eq_map _ _

theorem my_getpwuid_eq (flags : UInt8) (uid : Nat) (db : List Entry) :
    my_getpwuid flags uid db =
      (db.any fun e => e.pw_uid = uid, (db.filter fun e => e.pw_uid = uid).map (record flags)) := by
  induction db with
  | nil => rfl
  | cons ptr db ih =>
    simp only [my_getpwuid, ih, List.any_cons, List.filter_cons]
    by_cases huid : ptr.pw_uid = uid
    · simp [huid]
    · simp [huid]

theorem loadRecordsByUIDs_eq (flags : UInt8) (db : List Entry) (uids : List Nat) :
    loadRecordsByUIDs flags db uids =
      ((Request.uids uids).answers db).map (answerString flags) := by
  rw [loadRecordsByUIDs, Request.answers, List.map_flatMap]
  refine List.flatMap_congr fun uid _ => ?_
  rw [my_getpwuid_eq, orNotFound]
  cases hfound : db.filter fun e => e.pw_uid = uid with
  | nil =>
    have hany : (db.any fun e => e.pw_uid = uid) = false := by
      simpa [List.filter_eq_nil_iff] using hfound
    rw [hany]
    rfl
  | cons e found =>
    have hany : (db.any fun e => e.pw_uid = uid) = true := by
      have hmem : e ∈ db.filter fun e => e.pw_uid = uid := hfound ▸ List.mem_cons_self
      exact List.any_eq_true.mpr ⟨e, List.mem_filter.mp hmem⟩
    rw [hany, if_pos rfl, List.map_map]
    rfl

end Passwd

end RemotePasswd
