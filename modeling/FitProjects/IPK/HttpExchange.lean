import FitProjects.IPK.HttpReply
import FitProjects.IPK.ChunkEnd

/-! # An exchange between client and server

`Client` of `IPK/proj2` from its request to the files it writes, against a server that does not send
chunks. The stream of the reply reaches the client in pieces of any size. -/

namespace Http

open ChunkedTransfer (getline)

/-! ## The client -/

/-- The files `.header` and `.payload` of `log_response`. -/
structure Response where
  header : List UInt8
  payload : List UInt8

/-- `>>` to an `unsigned int`: the value, whether it was read, and the rest of the stream. -/
def extractUnsigned (is : List UInt8) : Nat × Bool × List UInt8 :=
  let (negative, is) := Decimal.sign (is.dropWhile isspace)
  let digits := is.takeWhile Decimal.isDigit
  let rest := is.dropWhile Decimal.isDigit
  if digits = [] then (0, false, rest)
  else if 2 ^ 32 ≤ Decimal.number digits then (2 ^ 32 - 1, false, rest)
  else if negative then ((2 ^ 32 - Decimal.number digits) % 2 ^ 32, true, rest)
  else (Decimal.number digits, true, rest)

/-- `read_header`: the status text, the status code, and the rest of the stream. On a stream of white
space alone the code leaves `sc` unset, which counts as 0 here. -/
def readHeader (response : List UInt8) : List UInt8 × Nat × List UInt8 :=
  let word := response.dropWhile isspace
  let http_version := word.takeWhile fun c => !isspace c
  let (sc, good, rest) := extractUnsigned (word.dropWhile fun c => !isspace c)
  let status := http_version ++ [32] ++ Decimal.print sc
  -- after a number that is not read, `getline` does nothing
  if good then (status ++ rest.takeWhile (· ≠ 10), sc, (rest.dropWhile (· ≠ 10)).drop 1)
  else (status ++ http_version, sc, rest)

/-- The loop over the header lines in `read_content`; without an empty line it would not end. -/
def headerLoop (response : List UInt8) : Option (List (List UInt8) × List UInt8) :=
  match _h : getline response with
  | none => none
  | some (buffer, rest) =>
    if buffer = [13] then some ([], rest)
    else (headerLoop rest).map fun r => (buffer :: r.1, r.2)
termination_by response.length
decreasing_by exact ChunkedTransfer.length_getline_lt _h

def conLen : List UInt8 := literal "Content-Length: "

/-- The loop that looks for the length of the content. `found` starts at 0, so that no header at all
counts as a length of 0. -/
def contentLength : List (List UInt8) → Option Nat
  | [] => some 0
  | h :: header =>
    if (Search.find conLen h).isSome then some (extractUnsigned (h.drop conLen.length)).1
    else if header = [] then none
    else contentLength header

/-- `read_content` behind the header lines, and `read_data`. -/
def readData (header : List (List UInt8)) (data : List UInt8) (reads : List (List UInt8)) :
    Option (List UInt8) :=
  (contentLength header).bind fun c_length =>
    if data.length = c_length then some data
    else (Search.fill (fun response =>
        decide ((c_length + 2 ^ 64 - data.length) % 2 ^ 64 ≤ response.length)) [] reads).map
      fun r => data ++ r.1

def chunkedLine : List UInt8 := literal "Transfer-Encoding: chunked\r"

/-- The client on the pieces in which the reply arrives. `none` is a client that writes no files, an
error an exception. -/
def receive (uninit : Nat → UInt8) (reads : List (List UInt8)) :
    Option (Except String Response) :=
  (Search.fill (fun d => (Search.find [13, 10] d).isSome) [] reads).bind fun first =>
    let (status, sc, rest) := readHeader first.1
    if sc ≠ 200 then some (.ok ⟨status, []⟩)
    else
      let emptyLine := fun d => (Search.find [13, 10, 13, 10] d).isSome
      (Search.fill emptyLine rest first.2).bind fun second =>
        (headerLoop second.1).bind fun (header, data) =>
          let file := status ++ header.flatten
          if chunkedLine ∈ header then
            (ChunkedTransfer.readContent uninit data second.2).map fun result =>
              result.map fun object => ⟨file, object⟩
          else (readData header data second.2).map fun data => .ok ⟨file, data⟩

/-! ## Reading lines -/

variable {line rest read s : List UInt8} {reads : List (List UInt8)}

theorem headerLoop_empty (rest : List UInt8) : headerLoop (13 :: 10 :: rest) = some ([], rest) := by
  rw [headerLoop]
  rfl

theorem headerLoop_line (hline : 10 ∉ line) (hne : line ≠ [13]) (rest : List UInt8) :
    headerLoop (line ++ 10 :: rest) = (headerLoop rest).map fun r => (line :: r.1, r.2) := by
  rw [headerLoop]
  split
  next hget =>
    rw [ChunkedTransfer.getline_append hline] at hget
    cases hget
  next hget =>
    rw [ChunkedTransfer.getline_append hline] at hget
    obtain ⟨rfl, rfl⟩ := Prod.mk.inj (Option.some.inj hget)
    exact if_neg hne

/-- A pattern that begins with a line feed does not stand in a line. -/
theorem infix_of_infix_append (hline : 10 ∉ line) (h : [10, 13, 10] <:+: line ++ s) :
    [10, 13, 10] <:+: s := by
  induction line with
  | nil => exact h
  | cons c line ih =>
    rw [List.mem_cons, not_or] at hline
    rcases List.infix_cons_iff.mp h with h | h
    · exact absurd (List.cons_prefix_cons.mp h).1 hline.1
    · exact ih hline.2 h

theorem eq_cr_of_start (hline : 10 ∉ line) (h : [13, 10] <+: line ++ 10 :: rest) : line = [13] := by
  cases line with
  | nil => exact absurd (List.cons_prefix_cons.mp h).1 (by decide)
  | cons c line =>
    obtain ⟨rfl, htail⟩ := List.cons_prefix_cons.mp h
    cases line with
    | nil => rfl
    | cons c line =>
      obtain ⟨rfl, -⟩ := List.cons_prefix_cons.mp htail
      simp at hline

/-- The loop ends at the first empty line, whatever is behind it. -/
theorem exists_headerLoop (h : [10, 13, 10] <:+: 10 :: s) : ∃ r, headerLoop s = some r ∧
    ∀ more, headerLoop (s ++ more) = some (r.1, r.2 ++ more) := by
  induction hn : s.length using Nat.strongRecOn generalizing s with
  | ind n ih =>
    have hmem : 10 ∈ s := by
      rcases List.infix_cons_iff.mp h with h | h
      · exact (List.cons_prefix_cons.mp h).2.subset (by simp)
      · exact h.subset (by simp)
    obtain ⟨line, rest, rfl, hline⟩ := List.eq_append_cons_of_mem hmem
    by_cases hempty : line = [13]
    · subst hempty
      exact ⟨([], rest), headerLoop_empty rest, fun more => headerLoop_empty (rest ++ more)⟩
    have hrest : [10, 13, 10] <:+: 10 :: rest := by
      rcases List.infix_cons_iff.mp h with h | h
      · exact absurd (eq_cr_of_start hline (List.cons_prefix_cons.mp h).2) hempty
      · exact infix_of_infix_append hline h
    have hlt : rest.length < n := by
      rw [← hn, List.length_append, List.length_cons]
      omega
    obtain ⟨r, hr, happend⟩ := ih _ hlt hrest rfl
    refine ⟨(line :: r.1, r.2), ?_, fun more => ?_⟩
    · rw [headerLoop_line hline hempty, hr, Option.map_some]
    · rw [List.append_assoc, List.cons_append, headerLoop_line hline hempty, happend,
        Option.map_some]

theorem headerLoop_lines {lines : List (List UInt8)}
    (h : ∀ line ∈ lines, 10 ∉ line ∧ line ≠ [13]) (rest : List UInt8) :
    headerLoop (lines.flatMap (· ++ [10]) ++ 13 :: 10 :: rest) = some (lines, rest) := by
  induction lines with
  | nil => exact headerLoop_empty rest
  | cons line lines ih =>
    rw [List.forall_mem_cons] at h
    rw [List.flatMap_cons, List.append_assoc, List.append_assoc, List.singleton_append,
      headerLoop_line h.1.1 h.1.2, ih h.2, Option.map_some]

/-- What has been read up to the empty line holds all header lines. -/
theorem headerLoop_read {lines : List (List UInt8)} {unread content : List UInt8}
    (h : ∀ line ∈ lines, 10 ∉ line ∧ line ≠ [13])
    (hfound : (Search.find [13, 10, 13, 10] read).isSome)
    (hread : read ++ unread = lines.flatMap (· ++ [10]) ++ 13 :: 10 :: content) :
    ∃ data, headerLoop read = some (lines, data) ∧ data ++ unread = content := by
  have hmark : [10, 13, 10] <:+: 10 :: read :=
    (List.infix_cons ((List.suffix_cons 13 [10, 13, 10]).isInfix.trans
      (Search.isSome_find.mp hfound)))
  obtain ⟨r, hr, happend⟩ := exists_headerLoop hmark
  have hall := happend unread
  rw [hread, headerLoop_lines h] at hall
  obtain ⟨rfl, hcontent⟩ := Prod.mk.inj (Option.some.inj hall)
  exact ⟨r.2, hr, hcontent.symm⟩

/-! ## Reading the status -/

theorem extractUnsigned_print {n : Nat} {c : UInt8} (hn : n < 2 ^ 32)
    (hc : Decimal.isDigit c = false) (rest : List UInt8) :
    extractUnsigned (Decimal.print n ++ c :: rest) = (n, true, c :: rest) := by
  rw [extractUnsigned, Decimal.dropWhile_isspace_print, Decimal.sign_print]
  simp only [Decimal.takeWhile_print hc, Decimal.dropWhile_print hc, Decimal.number_print]
  rw [if_neg (Decimal.print_ne_nil n), if_neg (Nat.not_le_of_lt hn), if_neg Bool.false_ne_true]

theorem StatusType.code_eq_iff {status : StatusType} : status.code = 200 ↔ status = .ok := by
  cases status with
  | ok => decide
  | bad_request => decide
  | not_found => decide

/-- A status line is read whole. -/
theorem readHeader_line {c : UInt8} {version : List UInt8} (code : Nat) (reason : List UInt8)
    (hversion : ∀ c ∈ version, isspace c = false) (hcode : code < 2 ^ 32)
    (hreason : 10 ∉ reason) (hc : version.head? = some c) (rest : List UInt8) :
    readHeader (version ++ 32 :: (Decimal.print code ++ 32 :: (reason ++ 10 :: rest))) =
      (version ++ [32] ++ Decimal.print code ++ 32 :: reason, code, rest) := by
  have hword (tail : List UInt8) : (version ++ tail).dropWhile isspace = version ++ tail := by
    obtain ⟨version, rfl⟩ := List.head?_eq_some_iff.mp hc
    rw [List.cons_append, dropWhile_isspace_cons (hversion c List.mem_cons_self)]
  have hnot : ∀ c ∈ version, (!isspace c) = true := by
    intro c hc
    rw [hversion c hc, Bool.not_false]
  have hline : (32 :: (reason ++ 10 :: rest)).takeWhile (· ≠ 10) = 32 :: reason ∧
      (32 :: (reason ++ 10 :: rest)).dropWhile (· ≠ 10) = 10 :: rest := by
    have hmem : ∀ c ∈ (32 :: reason : List UInt8), decide (c ≠ 10) = true := by
      intro c hc
      apply decide_eq_true
      rintro rfl
      exact hreason (List.mem_of_ne_of_mem (by decide) hc)
    rw [← List.cons_append, List.takeWhile_append_of_pos hmem, List.dropWhile_append_of_pos hmem]
    simp
  have hnumber : extractUnsigned (32 :: (Decimal.print code ++ 32 :: (reason ++ 10 :: rest))) =
      (code, true, 32 :: (reason ++ 10 :: rest)) := extractUnsigned_print hcode rfl _
  rw [readHeader, hword, List.takeWhile_append_of_pos hnot, List.dropWhile_append_of_pos hnot,
    List.takeWhile_cons_of_neg (by decide), List.dropWhile_cons_of_neg (by decide), hnumber]
  simp only [hline, if_pos, List.append_nil, List.drop_one, List.tail_cons]

theorem readHeader_toBuffer (status : StatusType) (rest : List UInt8) :
    readHeader (status.toBuffer ++ rest) =
      (status.toBuffer.filter (· ≠ 10), status.code, rest) := by
  have hall : ∀ c ∈ literal "HTTP/1.1", (!isspace c) = true := List.all_eq_true.mp rfl
  have hversion (c) (hc : c ∈ literal "HTTP/1.1") : isspace c = false := by
    rw [← Bool.not_eq_true', hall c hc]
  cases status with
  | ok => exact readHeader_line 200 (literal "OK\r") hversion (by decide) (by decide) rfl rest
  | bad_request =>
    exact readHeader_line 400 (literal "Bad Request\r") hversion (by decide) (by decide) rfl rest
  | not_found =>
    exact readHeader_line 404 (literal "Not Found\r") hversion (by decide) (by decide) rfl rest

/-- A line is in what has been read once its line feed is. -/
theorem exists_append_of_mem {unread : List UInt8} (hline : 10 ∉ line) (hmem : 10 ∈ read)
    (h : read ++ unread = line ++ 10 :: rest) :
    ∃ data, read = line ++ 10 :: data ∧ data ++ unread = rest := by
  obtain ⟨pre, data, rfl, hpre⟩ := List.eq_append_cons_of_mem hmem
  rw [List.append_assoc, List.cons_append] at h
  have hget := ChunkedTransfer.getline_append hpre (data ++ unread)
  rw [h, ChunkedTransfer.getline_append hline] at hget
  obtain ⟨rfl, rfl⟩ := Prod.mk.inj (Option.some.inj hget)
  exact ⟨data, rfl, rfl⟩

/-! ## Reading a reply -/

/-- The headers that the client needs: the length of the content comes first, no line ends early,
and nothing announces chunks. -/
structure Reply.Readable (r : Reply) : Prop where
  length : ∃ headers, r.headers =
    ⟨literal "Content-Length", Decimal.print r.content.length⟩ :: headers
  lines : ∀ h ∈ r.headers, 10 ∉ h.line ∧ h.line ≠ chunkedLine
  size : r.content.length < 2 ^ 32

/-- What the client writes to `.header`: the lines that it reads, without their line feeds. -/
def Reply.headerFile (r : Reply) : List UInt8 :=
  r.status.toBuffer.filter (· ≠ 10) ++
    if r.status = .ok then r.headers.flatMap Header.line else []

def Reply.payload (r : Reply) : List UInt8 := if r.status = .ok then r.content else []

variable {r : Reply}

theorem Header.line_ne (h : Header) : h.line ≠ [13] := by
  intro heq
  have hlen := congrArg List.length heq
  simp only [Header.line, List.length_append, List.length_cons, List.length_nil] at hlen
  omega

theorem Reply.bytes_eq (r : Reply) : r.bytes = r.status.toBuffer ++
    ((r.headers.map Header.line).flatMap (· ++ [10]) ++ 13 :: 10 :: r.content) := by
  have hlines (headers : List Header) :
      (headers.flatMap fun h => [h.name, [58, 32], h.value, [13, 10]]).flatten =
        (headers.map Header.line).flatMap (· ++ [10]) := by
    induction headers with
    | nil => rfl
    | cons h headers ih =>
      rw [List.flatMap_cons, List.flatten_append, ih, List.map_cons, List.flatMap_cons]
      simp [Header.line]
  rw [bytes, toBuffers, List.cons_append, List.flatten_cons, List.flatten_append, hlines]
  simp

theorem contentLength_eq (h : r.Readable) :
    contentLength (r.headers.map Header.line) = some r.content.length := by
  obtain ⟨headers, hheaders⟩ := h.length
  have hline : Header.line ⟨literal "Content-Length", Decimal.print r.content.length⟩ =
      conLen ++ (Decimal.print r.content.length ++ [13]) := List.append_assoc conLen _ _
  have hfind : (Search.find conLen (conLen ++ (Decimal.print r.content.length ++ [13]))).isSome :=
    Search.isSome_find.mpr (List.prefix_append ..).isInfix
  rw [hheaders, List.map_cons, hline, contentLength, if_pos hfind, List.drop_left,
    extractUnsigned_print h.size rfl]

theorem readData_eq {data : List UInt8} (h : r.Readable)
    (hdata : data ++ reads.flatten = r.content) :
    readData (r.headers.map Header.line) data reads = some r.content := by
  have hlen := congrArg List.length hdata
  have hsize := h.size
  rw [List.length_append] at hlen
  rw [readData, contentLength_eq h, Option.bind_some]
  split
  next heq =>
    have hnil : reads.flatten = [] := List.eq_nil_of_length_eq_zero (by omega)
    rw [← hdata, hnil, List.append_nil]
  next hne =>
    -- the difference does not wrap around
    have hleft : (r.content.length + 2 ^ 64 - data.length) % 2 ^ 64 = reads.flatten.length := by
      omega
    obtain ⟨read, rest, hfill, htest, hread⟩ := Search.exists_fill (fun response => decide
      ((r.content.length + 2 ^ 64 - data.length) % 2 ^ 64 ≤ response.length)) [] reads
      (decide_eq_true (by rw [hleft, List.nil_append]))
    have hall := congrArg List.length hread
    have hle := of_decide_eq_true htest
    rw [hleft] at hle
    rw [List.nil_append, List.length_append] at hall
    have hrest : rest.flatten = [] := List.eq_nil_of_length_eq_zero (by omega)
    rw [hrest, List.append_nil, List.nil_append] at hread
    rw [hfill, Option.map_some, hread, hdata]

theorem mark_mem (h : r.Readable) : [13, 10, 13, 10] <:+:
    (r.headers.map Header.line).flatMap (· ++ [10]) ++ 13 :: 10 :: r.content := by
  obtain ⟨headers, hheaders⟩ := h.length
  rcases List.eq_nil_or_concat' r.headers with hnil | ⟨init, last, hlast⟩
  · rw [hnil] at hheaders
    cases hheaders
  · rw [hlast, List.map_append, List.flatMap_append]
    refine ⟨(init.map Header.line).flatMap (· ++ [10]) ++ last.name ++ [58, 32] ++ last.value,
      r.content, ?_⟩
    simp [Header.line]

/-- The client gets the reply, in whatever pieces it arrives. -/
theorem receive_bytes (uninit : Nat → UInt8) (h : r.Readable) (hreads : reads.flatten = r.bytes) :
    receive uninit reads = some (.ok ⟨r.headerFile, r.payload⟩) := by
  have hstatus : r.status.toBuffer = r.status.toBuffer.dropLast ++ [10] ∧
      10 ∉ r.status.toBuffer.dropLast ∧ [13, 10] <:+: r.status.toBuffer := by
    cases r.status with
    | ok => decide
    | bad_request => decide
    | not_found => decide
  obtain ⟨hend, hline, hcrlf⟩ := hstatus
  have hlines : ∀ line ∈ r.headers.map Header.line, 10 ∉ line ∧ line ≠ [13] := by
    intro line hmem
    obtain ⟨header, hheader, rfl⟩ := List.mem_map.mp hmem
    exact ⟨(h.lines header hheader).1, header.line_ne⟩
  rw [Reply.bytes_eq] at hreads
  -- up to the end of the status line
  obtain ⟨read, rest, hfill, htest, hread⟩ :=
    Search.exists_fill (fun d => (Search.find [13, 10] d).isSome) [] reads (by
      rw [List.nil_append, hreads, Search.isSome_find]
      exact List.infix_append_of_infix_left hcrlf)
  have hmem : 10 ∈ read := (Search.isSome_find.mp htest).subset (by simp)
  rw [List.nil_append, hreads, hend, List.append_assoc, List.singleton_append] at hread
  obtain ⟨data, rfl, hdata⟩ := exists_append_of_mem hline hmem hread
  have hheader : readHeader (r.status.toBuffer.dropLast ++ 10 :: data) =
      (r.status.toBuffer.filter (· ≠ 10), r.status.code, data) := by
    rw [← readHeader_toBuffer, hend]
    simp
  rw [receive, hfill, Option.bind_some, hheader]
  by_cases hok : r.status = .ok
  · -- up to the empty line
    obtain ⟨read, rest', hfill', htest', hread'⟩ :=
      Search.exists_fill (fun d => (Search.find [13, 10, 13, 10] d).isSome) data rest (by
        rw [hdata, Search.isSome_find]
        exact mark_mem h)
    rw [hdata] at hread'
    obtain ⟨data', hloop, hdata'⟩ := headerLoop_read hlines htest' hread'
    have hchunked : chunkedLine ∉ r.headers.map Header.line := by
      rw [List.mem_map]
      rintro ⟨header, hmem, heq⟩
      exact (h.lines header hmem).2 heq
    dsimp only
    rw [if_neg (not_not.mpr (StatusType.code_eq_iff.mpr hok)), hfill', Option.bind_some, hloop,
      Option.bind_some]
    dsimp only
    rw [if_neg hchunked, readData_eq h hdata', Option.map_some, Reply.headerFile, Reply.payload,
      if_pos hok, if_pos hok, List.flatMap_def]
  · dsimp only
    rw [if_pos (mt StatusType.code_eq_iff.mp hok), Reply.headerFile, Reply.payload, if_neg hok,
      if_neg hok, List.append_nil]

/-! ## Replies of the server -/

variable {fs : FileSystem} {parsed : KeepAlive.Parsed}

/-- The types of contents are texts of one line. -/
theorem not_mem_mime (ext : List UInt8) : 10 ∉ ext2mime ext := by
  have hall : ∀ mime ∈ [literal "image/gif", literal "image/jpeg", literal "image/png",
      literal "text/html", literal "text/plain"], (10 : UInt8) ∉ mime := by decide
  apply hall
  rw [ext2mime]
  repeat' split
  all_goals simp

theorem Header.line_spec {name value : List UInt8} (hname : name.head? = some 67)
    (hn : 10 ∉ name) (hv : 10 ∉ value) :
    10 ∉ (Header.mk name value).line ∧ (Header.mk name value).line ≠ chunkedLine := by
  constructor
  · simp [line, hn, hv]
  · intro heq
    obtain ⟨name, rfl⟩ := List.head?_eq_some_iff.mp hname
    have hhead : (67 : UInt8) = 84 := Option.some.inj (congrArg List.head? heq)
    exact absurd hhead (by decide)

theorem not_mem_print (n : Nat) : 10 ∉ Decimal.print n :=
  fun h => absurd (Decimal.isDigit_of_mem_print h) (by decide)

theorem readable_okReply {mime content : List UInt8} (keepAlive : Bool) (hmime : 10 ∉ mime)
    (hsize : content.length < 2 ^ 32) : (okReply keepAlive mime content).Readable where
  length := ⟨_, rfl⟩
  lines := by
    have hkeep : ∀ h ∈ if keepAlive then
        [Header.mk (literal "Connection") (literal "Keep-Alive")] else [],
        10 ∉ h.line ∧ h.line ≠ chunkedLine := by
      cases keepAlive with
      | false => simp
      | true => exact List.forall_mem_singleton.mpr (Header.line_spec rfl (by decide) (by decide))
    exact List.forall_mem_cons.mpr ⟨Header.line_spec rfl (by decide) (not_mem_print _),
      List.forall_mem_cons.mpr ⟨Header.line_spec rfl (by decide) hmime, hkeep⟩⟩
  size := hsize

theorem readable_stockReply (status : StatusType) : (Reply.stockReply status).Readable where
  length := ⟨_, rfl⟩
  lines := List.forall_mem_cons.mpr ⟨Header.line_spec rfl (by decide) (not_mem_print _),
    List.forall_mem_singleton.mpr (Header.line_spec rfl (by decide) (by decide))⟩
  size := by
    cases status with
    | ok => decide
    | bad_request => decide
    | not_found => decide

/-- `handle` answers with one of the texts for errors or with a content. -/
theorem handle_cases (fs : FileSystem) (parsed : KeepAlive.Parsed) :
    (∃ status, handle fs parsed = .stockReply status) ∨
      ∃ mime content, 10 ∉ mime ∧ handle fs parsed = okReply parsed.keepAlive mime content := by
  rw [handle]
  dsimp only
  split
  · exact .inl ⟨_, rfl⟩
  split
  · split
    · split
      · exact .inl ⟨_, rfl⟩
      · exact .inr ⟨_, _, by decide, rfl⟩
    · exact .inr ⟨_, _, by decide, rfl⟩
  · split
    · exact .inl ⟨_, rfl⟩
    · exact .inr ⟨_, _, not_mem_mime _, rfl⟩

theorem readable_handle (h : (handle fs parsed).content.length < 2 ^ 32) :
    (handle fs parsed).Readable := by
  rcases handle_cases fs parsed with ⟨status, heq⟩ | ⟨mime, content, hmime, heq⟩
  · rw [heq]
    exact readable_stockReply status
  · rw [heq] at h ⊢
    exact readable_okReply _ hmime h

/-! ## The request -/

/-- The text of an address that needs no decoding. -/
theorem urlDecode_plain {text : List UInt8} (h : ∀ c ∈ text, c ≠ 37 ∧ c ≠ 43) :
    urlDecode text = (true, text) := by
  have hloop (out : List UInt8) : urlDecodeLoop text out = (true, out ++ text) := by
    induction text generalizing out with
    | nil => rw [urlDecodeLoop, List.append_nil]
    | cons c text ih =>
      rw [List.forall_mem_cons] at h
      rw [urlDecodeLoop.eq_def]
      simp only [if_neg h.1.1, if_neg h.1.2, ih h.2, List.append_assoc, List.singleton_append]
  exact hloop []

namespace Uri

theorem loop_path (uri : Uri) (text : List UInt8) :
    loop (.s_path, uri) text = (.s_path, { uri with path := uri.path ++ text }) := by
  induction text generalizing uri with
  | nil => rw [List.append_nil]; rfl
  | cons c text ih =>
    change loop (.s_path, { uri with path := uri.path ++ [c] }) text = _
    rw [ih, List.append_assoc, List.singleton_append]

theorem loop_port (uri : Uri) {port : List UInt8} (h : 47 ∉ port) (rest : List UInt8) :
    loop (.s_port, uri) (port ++ 47 :: rest) =
      loop (.s_path, { uri with port := uri.port ++ port }) rest := by
  induction port generalizing uri with
  | nil => rw [List.append_nil]; rfl
  | cons c port ih =>
    rw [List.mem_cons, not_or] at h
    have hscan : scan .s_port uri c = (.s_port, { uri with port := uri.port ++ [c] }) :=
      if_neg (Ne.symm h.1)
    rw [List.cons_append, loop, List.foldl_cons, hscan, ← loop, ih _ h.2, List.append_assoc,
      List.singleton_append]

theorem loop_hostname (uri : Uri) {host : List UInt8} (h : 47 ∉ host ∧ 58 ∉ host)
    (rest : List UInt8) : loop (.s_hostname, uri) (host ++ rest) =
      loop (.s_hostname, { uri with server := uri.server ++ host }) rest := by
  induction host generalizing uri with
  | nil => rw [List.append_nil]; rfl
  | cons c host ih =>
    rw [List.mem_cons, not_or, List.mem_cons, not_or] at h
    have hscan : scan .s_hostname uri c =
        (.s_hostname, { uri with server := uri.server ++ [c] }) :=
      (if_neg (Ne.symm h.1.1)).trans (if_neg (Ne.symm h.2.1))
    rw [List.cons_append, loop, List.foldl_cons, hscan, ← loop, ih _ ⟨h.1.2, h.2.2⟩,
      List.append_assoc, List.singleton_append]

/-- An address with a host, a port or none, and a path. -/
def address (host : List UInt8) (port : Option (List UInt8)) (path : List UInt8) : List UInt8 :=
  host ++ (port.elim [] fun port => 58 :: port) ++ 47 :: path

/-- The parts of an address that no character of is special. -/
structure Plain (host : List UInt8) (port : Option (List UInt8)) (path : List UInt8) : Prop where
  host : ∀ c ∈ host, c ≠ 37 ∧ c ≠ 43 ∧ c ≠ 47 ∧ c ≠ 58
  port : ∀ p, port = some p → p ≠ [] ∧ ∀ c ∈ p, c ≠ 37 ∧ c ≠ 43 ∧ c ≠ 47
  path : ∀ c ∈ path, c ≠ 37 ∧ c ≠ 43 ∧ c ≠ 32

theorem parse_address {host path : List UInt8} {port : Option (List UInt8)}
    (h : Plain host port path) :
    parse (address host port path) = ⟨host, port.getD (literal "80"), 47 :: path⟩ := by
  have hdecode : urlDecode (address host port path) = (true, address host port path) := by
    apply urlDecode_plain
    intro c hc
    rw [address, List.mem_append, List.mem_append, List.mem_cons] at hc
    rcases hc with (hc | hc) | rfl | hc
    · exact ⟨(h.host c hc).1, (h.host c hc).2.1⟩
    · cases port with
      | none => cases hc
      | some p =>
        rcases List.mem_cons.mp hc with rfl | hc
        · decide
        · exact ⟨((h.port p rfl).2 c hc).1, ((h.port p rfl).2 c hc).2.1⟩
    · decide
    · exact ⟨(h.path c hc).1, (h.path c hc).2.1⟩
  have hhost : 47 ∉ host ∧ 58 ∉ host :=
    ⟨fun hc => (h.host _ hc).2.2.1 rfl, fun hc => (h.host _ hc).2.2.2 rfl⟩
  rw [parse, hdecode, address, List.append_assoc]
  dsimp only
  rw [loop_hostname _ hhost, List.nil_append]
  cases port with
  | none =>
    have hslash : loop (.s_hostname, ⟨host, [], [47]⟩) (47 :: path) =
        (.s_path, ⟨host, [], 47 :: path⟩) := loop_path ⟨host, [], [47]⟩ path
    rw [Option.elim_none, List.nil_append, hslash]
    rfl
  | some p =>
    have hport := h.port p rfl
    have hslash : 47 ∉ p := fun hc => (hport.2 _ hc).2.2 rfl
    have hcolon : loop (.s_hostname, ⟨host, [], [47]⟩) (58 :: (p ++ 47 :: path)) =
        (.s_path, ⟨host, p, 47 :: path⟩) :=
      (loop_port ⟨host, [], [47]⟩ hslash path).trans (loop_path _ path)
    rw [Option.elim_some, List.cons_append, hcolon]
    exact if_neg hport.1

end Uri

theorem request_ne_nil (uri : Uri) : uri.request ≠ [] := by simp [Uri.request, literal]

/-- What the server makes of the request for an address without spaces in its path. -/
theorem respond_request (fs : FileSystem) (buffer : KeepAlive.Buffer) {uri : Uri}
    (hspace : 32 ∉ uri.path) (hsize : uri.request.length ≤ 8192) :
    respond fs buffer ⟨uri.request, request_ne_nil uri, hsize⟩ =
      some (handle fs ⟨literal "GET", uri.path, true⟩) := by
  obtain ⟨rest, hrest⟩ :
      ∃ rest, uri.request = literal "GET" ++ 32 :: (uri.path ++ 32 :: rest) :=
    ⟨literal "HTTP/1.1\r\n" ++ literal "Host: " ++ uri.server ++ literal "\r\n" ++
      literal "Accept: */*\r\n" ++ literal "Connection: Keep-Alive\r\n\r\n",
      by simp [Uri.request, literal]⟩
  have hphrase : KeepAlive.phrase.map KeepAlive.toupper <:+:
      (uri.request ++ buffer.bytes.drop uri.request.length).map KeepAlive.toupper := by
    have hinfix : KeepAlive.phrase <:+: uri.request :=
      ⟨literal "GET " ++ uri.path ++ literal " HTTP/1.1\r\n" ++ literal "Host: " ++ uri.server ++
        literal "\r\n" ++ literal "Accept: */*\r\n", literal "\r\n\r\n", by
        simp [Uri.request, literal, KeepAlive.phrase]⟩
    exact (List.infix_append_of_infix_left hinfix).map _
  have hkeep := KeepAlive.isSome_ifindFirst.mpr hphrase
  rw [respond, KeepAlive.Buffer.read]
  dsimp only
  rw [hrest, List.append_assoc, List.cons_append, List.append_assoc, List.cons_append] at hkeep ⊢
  rw [KeepAlive.parse_append (by decide) hspace, hkeep, Option.map_some]

/-- Whatever is left in the buffer of the connection and in whatever pieces the reply arrives, the
client writes the reply of the handler to the path of its address. -/
theorem get_exchange (fs : FileSystem) (buffer : KeepAlive.Buffer) (uninit : Nat → UInt8)
    (text : List UInt8) (hspace : 32 ∉ (Uri.parse text).path)
    (hsize : (Uri.parse text).request.length ≤ 8192) :
    ∃ r, respond fs buffer ⟨(Uri.parse text).request, request_ne_nil _, hsize⟩ = some r ∧
      r = handle fs ⟨literal "GET", (Uri.parse text).path, true⟩ ∧
      (r.content.length < 2 ^ 32 → ∀ reads : List (List UInt8), reads.flatten = r.bytes →
        receive uninit reads = some (.ok ⟨r.headerFile, r.payload⟩)) :=
  ⟨_, respond_request fs buffer hspace hsize, rfl,
    fun hcontent _ hreads => receive_bytes uninit (readable_handle hcontent) hreads⟩

/-- The reply in one piece. -/
theorem get_exchange_onePiece :
    ∃ r, respond ⟨fun _ => false, fun _ => true, fun _ => some [65], fun _ => []⟩
        ⟨List.replicate 8192 0, List.length_replicate⟩
        ⟨(Uri.parse (literal "h/a")).request, request_ne_nil _, by decide⟩ = some r ∧
      receive (fun _ => 0) [r.bytes] = some (.ok ⟨r.headerFile, r.payload⟩) := by
  obtain ⟨r, hr, hhandle, hreceive⟩ := get_exchange
    ⟨fun _ => false, fun _ => true, fun _ => some [65], fun _ => []⟩
    ⟨List.replicate 8192 0, List.length_replicate⟩ (fun _ => 0) (literal "h/a") (by decide)
    (by decide)
  have hsize : r.content.length < 2 ^ 32 := by
    rw [hhandle]
    decide
  exact ⟨r, hr, hreceive hsize _ (List.append_nil _)⟩

/-- The path of a plain address is the path of a file under the document root. -/
theorem handle_plain {path : List UInt8} (hpath : ∀ c ∈ path, c ≠ 37 ∧ c ≠ 43 ∧ c ≠ 32)
    (hfile : fs.isDirectory (doc ++ 47 :: path) = false) :
    handle fs ⟨literal "GET", 47 :: path, true⟩ =
      match fs.openFile (doc ++ 47 :: path) with
      | none => .stockReply .not_found
      | some file => okReply true (ext2mime (extension (doc ++ 47 :: path))) file := by
  have hdecode : urlDecode (doc ++ 47 :: path) = (true, doc ++ 47 :: path) := by
    apply urlDecode_plain
    intro c hc
    have hdoc : ∀ c ∈ doc ++ [47], decide (c ≠ 37 ∧ c ≠ 43) = true := List.all_eq_true.mp rfl
    rcases List.mem_append.mp (List.append_cons .. ▸ hc) with hc | hc
    · exact of_decide_eq_true (hdoc c hc)
    · exact ⟨(hpath c hc).1, (hpath c hc).2.1⟩
  simp only [handle, hdecode, hfile]
  rfl

/-- A file is fetched, a missing one is reported. -/
theorem get_file (fs : FileSystem) (buffer : KeepAlive.Buffer) (uninit : Nat → UInt8)
    {host path : List UInt8} {port : Option (List UInt8)} (hplain : Uri.Plain host port path)
    (hsize : (Uri.parse (Uri.address host port path)).request.length ≤ 8192)
    (hfile : fs.isDirectory (doc ++ 47 :: path) = false) :
    Uri.parse (Uri.address host port path) = ⟨host, port.getD (literal "80"), 47 :: path⟩ ∧
    ∃ r, respond fs buffer ⟨(Uri.parse (Uri.address host port path)).request, request_ne_nil _,
        hsize⟩ = some r ∧
      ∀ reads : List (List UInt8), reads.flatten = r.bytes →
        (fs.openFile (doc ++ 47 :: path) = none →
          receive uninit reads = some (.ok ⟨literal "HTTP/1.1 404 Not Found\r", []⟩)) ∧
        ∀ file, fs.openFile (doc ++ 47 :: path) = some file → file.length < 2 ^ 32 →
          receive uninit reads = some (.ok ⟨(okReply true
            (ext2mime (extension (doc ++ 47 :: path))) file).headerFile, file⟩) := by
  have hparse := Uri.parse_address hplain
  have hspace : 32 ∉ (Uri.parse (Uri.address host port path)).path := by
    rw [hparse, List.mem_cons, not_or]
    exact ⟨by decide, fun hc => (hplain.path _ hc).2.2 rfl⟩
  refine ⟨hparse, _, respond_request fs buffer hspace hsize, ?_⟩
  intro reads hreads
  have hhandle := handle_plain hplain.path hfile
  constructor
  · intro hnone
    rw [hparse, hhandle, hnone] at hreads
    rw [receive_bytes uninit (readable_stockReply .not_found) hreads]
    rfl
  · intro file hsome hlen
    rw [hparse, hhandle, hsome] at hreads
    exact receive_bytes uninit (readable_okReply true (not_mem_mime _) hlen) hreads

/-- A file of one byte. -/
theorem get_file_oneByte :
    ∃ r, respond ⟨fun _ => false, fun _ => true, fun _ => some [65], fun _ => []⟩
        ⟨List.replicate 8192 0, List.length_replicate⟩
        ⟨(Uri.parse (Uri.address (literal "h") none (literal "a"))).request, request_ne_nil _,
          by decide⟩ = some r ∧
      receive (fun _ => 0) [r.bytes] = some (.ok
        ⟨(okReply true (ext2mime (extension (doc ++ 47 :: literal "a"))) [65]).headerFile,
          [65]⟩) := by
  have hplain : Uri.Plain (literal "h") none (literal "a") :=
    ⟨List.forall_mem_singleton.mpr (by decide), (fun _ h => nomatch h),
      List.forall_mem_singleton.mpr (by decide)⟩
  obtain ⟨-, r, hr, hreceive⟩ := get_file
    ⟨fun _ => false, fun _ => true, fun _ => some [65], fun _ => []⟩
    ⟨List.replicate 8192 0, List.length_replicate⟩ (fun _ => 0) hplain (by decide) rfl
  exact ⟨r, hr, (hreceive _ (List.append_nil _)).2 _ rfl (by decide)⟩

end Http
