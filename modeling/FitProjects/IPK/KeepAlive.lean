import FitProjects.Lib.Search
import FitProjects.Lib.System

/-! # Requests on a kept connection

`Connection::read` and `RequestParser` of `IPK/proj2`. Every request is read into the start of
`_buffer`, and the parser gets the whole buffer with what is left in it of the requests before. -/

namespace KeepAlive

/-! ## The parser -/

/-- The array that a connection reads into; a new connection does not initialise it. -/
structure Buffer where
  bytes : List UInt8
  length_eq : bytes.length = 8192

/-- A request that one read gets. -/
structure Request where
  bytes : List UInt8
  ne_nil : bytes ≠ []
  length_le : bytes.length ≤ 8192

/-- What `RequestParser::parse` computes. -/
structure Parsed where
  method : List UInt8
  path : List UInt8
  keepAlive : Bool
  deriving DecidableEq, Repr

/-- `std::toupper` in the classic locale. -/
def toupper (c : UInt8) : UInt8 := if 97 ≤ c ∧ c ≤ 122 then c - 32 else c

/-- `boost::algorithm::ifind_first`: where the range starts that it finds. -/
def ifindFirst (input test : List UInt8) : Option Nat :=
  Search.find (test.map toupper) (input.map toupper)

/-- `Connection: Keep-Alive` -/
def phrase : List UInt8 :=
  [67, 111, 110, 110, 101, 99, 116, 105, 111, 110, 58, 32,
    75, 101, 101, 112, 45, 65, 108, 105, 118, 101]

/-- The first loop of `parse`: `readpos` and `method`. -/
def methodLoop : List UInt8 → Nat → List UInt8 → Nat × List UInt8
  | [], readpos, method => (readpos, method)
  | c :: data, readpos, method =>
    if c ≠ 32 then methodLoop data (readpos + 1) (method ++ [c]) else (readpos + 1, method)

/-- The second loop of `parse`, from `readpos` on. Without another space it runs past the end of
the data. -/
def pathLoop : List UInt8 → List UInt8 → Option (List UInt8)
  | [], _ => none
  | c :: data, path => if c ≠ 32 then pathLoop data (path ++ [c]) else some path

/-- `RequestParser::parse`, undefined where it reads outside the data. -/
def parse (data : List UInt8) : Option Parsed :=
  let (readpos, method) := methodLoop data 0 []
  (pathLoop (data.drop readpos) []).map fun path =>
    ⟨method, path, (ifindFirst data phrase).isSome⟩

/-! ## The connection -/

/-- What a read of the request leaves in the buffer. -/
def Buffer.read (buffer : Buffer) (request : Request) : Buffer where
  bytes := request.bytes ++ buffer.bytes.drop request.bytes.length
  length_eq := by
    have hle := request.length_le
    rw [List.length_append, List.length_drop, buffer.length_eq]
    omega

/-- A connection: its buffer, whether it waits for a request, and what the parser computed for the
last one. -/
structure Connection where
  buffer : Buffer
  reading : Bool
  parsed : Option Parsed

/-- The handler of `Connection::read`; `write` reads again when the connection is kept. -/
def Connection.handle (s : Connection) (request : Request) : Option Connection :=
  if s.reading then
    let buffer := s.buffer.read request
    (parse buffer.bytes).map fun parsed => ⟨buffer, parsed.keepAlive, some parsed⟩
  else none

/-- A connection from `start` on, with what its buffer happens to hold. -/
def connection (uninit : Buffer) : System Connection Request where
  init := ⟨uninit, true, none⟩
  step := Connection.handle

/-- Two connections that have read `k` requests each compute the same for the next one. -/
def IsolatedAt (uninit₁ uninit₂ : Buffer) (k : Nat) (request : Request) : Prop :=
  ∀ earlier₁ earlier₂ s₁ s₂, earlier₁.length = k → earlier₂.length = k →
    (connection uninit₁).runs (connection uninit₁).init earlier₁ = some s₁ → s₁.reading →
    (connection uninit₂).runs (connection uninit₂).init earlier₂ = some s₂ → s₂.reading →
    ∃ s₁' s₂' parsed, (connection uninit₁).step s₁ request = some s₁' ∧
      (connection uninit₂).step s₂ request = some s₂' ∧
      s₁'.parsed = some parsed ∧ s₂'.parsed = some parsed

/-- What is computed for a request depends on its own bytes only, whatever came before it on any
connection. -/
def Isolated (request : Request) : Prop :=
  ∀ uninit₁ uninit₂ k, IsolatedAt uninit₁ uninit₂ k request

/-- The request has both spaces and the phrase, or no bytes behind it can complete the phrase. -/
structure SelfContained (request : Request) : Prop where
  spaces : 2 ≤ request.bytes.count 32
  complete : phrase.map toupper <:+: request.bytes.map toupper ∨
    ∀ u v, phrase.map toupper = u ++ v → u <:+ request.bytes.map toupper →
      8192 < request.bytes.length + v.length

/-! ## What the parser computes -/

variable {data method path rest : List UInt8}

theorem methodLoop_append (h : 32 ∉ method) (readpos : Nat) (pre : List UInt8) :
    methodLoop (method ++ 32 :: rest) readpos pre =
      (readpos + method.length + 1, pre ++ method) := by
  induction method generalizing readpos pre with
  | nil => simp [methodLoop]
  | cons c method ih =>
    rw [List.mem_cons, not_or] at h
    obtain ⟨hc, hm⟩ := h
    rw [List.cons_append, methodLoop, if_pos (Ne.symm hc), ih hm, List.length_cons,
      List.append_assoc, List.singleton_append]
    congr 1
    omega

theorem methodLoop_of_not_mem (h : 32 ∉ data) (readpos : Nat) (pre : List UInt8) :
    methodLoop data readpos pre = (readpos + data.length, pre ++ data) := by
  induction data generalizing readpos pre with
  | nil => simp [methodLoop]
  | cons c data ih =>
    rw [List.mem_cons, not_or] at h
    obtain ⟨hc, hd⟩ := h
    rw [methodLoop, if_pos (Ne.symm hc), ih hd, List.length_cons, List.append_assoc,
      List.singleton_append]
    congr 1
    omega

theorem pathLoop_append (h : 32 ∉ path) (pre : List UInt8) :
    pathLoop (path ++ 32 :: rest) pre = some (pre ++ path) := by
  induction path generalizing pre with
  | nil => simp [pathLoop]
  | cons c path ih =>
    rw [List.mem_cons, not_or] at h
    obtain ⟨hc, hp⟩ := h
    rw [List.cons_append, pathLoop, if_pos (Ne.symm hc), ih hp, List.append_assoc,
      List.singleton_append]

theorem pathLoop_of_not_mem (h : 32 ∉ data) (pre : List UInt8) : pathLoop data pre = none := by
  induction data generalizing pre with
  | nil => rfl
  | cons c data ih =>
    rw [List.mem_cons, not_or] at h
    obtain ⟨hc, hd⟩ := h
    rw [pathLoop, if_pos (Ne.symm hc), ih hd]

theorem drop_append_space (method rest : List UInt8) :
    (method ++ 32 :: rest).drop (0 + method.length + 1) = rest := by
  rw [show method ++ 32 :: rest = (method ++ [32]) ++ rest by simp]
  exact List.drop_left' (by simp)

/-- The method and the path are what two spaces end. -/
theorem parse_append (hm : 32 ∉ method) (hp : 32 ∉ path) :
    parse (method ++ 32 :: (path ++ 32 :: rest)) = some ⟨method, path,
      (ifindFirst (method ++ 32 :: (path ++ 32 :: rest)) phrase).isSome⟩ := by
  simp only [parse, methodLoop_append hm, drop_append_space, pathLoop_append hp, List.nil_append,
    Option.map_some]

/-- Without two spaces the parser reads outside the data. -/
theorem parse_eq_none (h : data.count 32 < 2) : parse data = none := by
  by_cases hdata : 32 ∈ data
  · obtain ⟨method, rest, rfl, hm⟩ := List.eq_append_cons_of_mem hdata
    have hrest : 32 ∉ rest := by
      rw [List.count_append, List.count_cons_self] at h
      exact List.count_eq_zero.mp (by omega)
    simp only [parse, methodLoop_append hm, drop_append_space, pathLoop_of_not_mem hrest,
      Option.map_none]
  · simp only [parse, methodLoop_of_not_mem hdata, Nat.zero_add, List.drop_length, pathLoop,
      Option.map_none]

/-- The two spaces that the parser needs. -/
theorem exists_split (h : 2 ≤ data.count 32) :
    ∃ method path rest, data = method ++ 32 :: (path ++ 32 :: rest) ∧ 32 ∉ method ∧ 32 ∉ path := by
  obtain ⟨method, data, rfl, hm⟩ :=
    List.eq_append_cons_of_mem (List.count_pos_iff.mp (by omega : 0 < data.count 32))
  rw [List.count_append, List.count_cons_self, List.count_eq_zero.mpr hm] at h
  obtain ⟨path, rest, rfl, hp⟩ :=
    List.eq_append_cons_of_mem (List.count_pos_iff.mp (by omega : 0 < data.count 32))
  exact ⟨method, path, rest, rfl, hm, hp⟩

theorem isSome_ifindFirst :
    (ifindFirst data phrase).isSome ↔ phrase.map toupper <:+: data.map toupper :=
  Search.isSome_find

theorem keepAlive_iff (h : parse data = some parsed) :
    parsed.keepAlive ↔ phrase.map toupper <:+: data.map toupper := by
  obtain ⟨path, -, rfl⟩ := Option.map_eq_some_iff.mp h
  exact isSome_ifindFirst

/-- A buffer after which the connection is kept. -/
theorem exists_parse (hspaces : 2 ≤ data.count 32)
    (hphrase : phrase.map toupper <:+: data.map toupper) :
    ∃ parsed, parse data = some parsed ∧ parsed.keepAlive = true := by
  obtain ⟨method, path, rest, rfl, hm, hp⟩ := exists_split hspaces
  exact ⟨_, parse_append hm hp, isSome_ifindFirst.mpr hphrase⟩

/-! ## Requests that are self-contained -/

/-- A self-contained request is parsed in every buffer alike. -/
theorem SelfContained.parse_read (h : SelfContained request) :
    ∃ parsed, ∀ buffer : Buffer, parse (buffer.read request).bytes = some parsed := by
  obtain ⟨method, path, rest, hdata, hm, hp⟩ := exists_split h.spaces
  refine ⟨⟨method, path, decide (phrase.map toupper <:+: request.bytes.map toupper)⟩,
    fun buffer => ?_⟩
  have hfind : (ifindFirst (buffer.read request).bytes phrase).isSome =
      decide (phrase.map toupper <:+: request.bytes.map toupper) := by
    rw [Bool.eq_iff_iff, isSome_ifindFirst, decide_eq_true_iff, Buffer.read, List.map_append]
    refine ⟨fun hinfix => ?_, List.infix_append_of_infix_left⟩
    rcases h.complete with hr | hlong
    · exact hr
    · have hlen : (buffer.bytes.drop request.bytes.length).length = 8192 - request.bytes.length := by
        rw [List.length_drop, buffer.length_eq]
      have hpos := List.length_pos_iff.mpr request.ne_nil
      have hle := request.length_le
      rcases List.infix_append_iff.mp hinfix with hr | htail | ⟨u, v, huv, hu, hv⟩
      · exact hr
      · have hlt := hlong [] (phrase.map toupper) rfl (List.nil_suffix ..)
        have := htail.length_le
        have hdrop : ((buffer.bytes.drop request.bytes.length).map toupper).length =
            (buffer.bytes.drop request.bytes.length).length := List.length_map toupper
        rw [hdrop] at this
        omega
      · have hlt := hlong u v huv hu
        have := hv.length_le
        have hdrop : ((buffer.bytes.drop request.bytes.length).map toupper).length =
            (buffer.bytes.drop request.bytes.length).length := List.length_map toupper
        rw [hdrop] at this
        omega
  have hread : (buffer.read request).bytes = method ++ 32 :: (path ++ 32 ::
      (rest ++ buffer.bytes.drop request.bytes.length)) := by
    have htail : ∀ tail, request.bytes ++ tail =
        method ++ 32 :: (path ++ 32 :: (rest ++ tail)) := fun tail => by simp [hdata]
    exact htail _
  rw [← hfind, hread, parse_append hm hp]

theorem SelfContained.isolated (h : SelfContained request) : Isolated request := by
  obtain ⟨parsed, hparse⟩ := h.parse_read
  intro uninit₁ uninit₂ k earlier₁ earlier₂ s₁ s₂ _ _ _ hs₁ _ hs₂
  have hstep : ∀ s : Connection, s.reading →
      s.handle request = some ⟨s.buffer.read request, parsed.keepAlive, some parsed⟩ := by
    intro s hs
    rw [Connection.handle, if_pos hs]
    simp only [hparse, Option.map_some]
  exact ⟨_, _, parsed, hstep s₁ hs₁, hstep s₂ hs₂, rfl, rfl⟩

/-! ## Requests that are not -/

/-- A buffer whose bytes are a request that keeps the connection. -/
structure Keeping (buffer : Buffer) : Prop where
  spaces : 2 ≤ buffer.bytes.count 32
  phrase : KeepAlive.phrase.map toupper <:+: buffer.bytes.map toupper

/-- The request that fills the buffer. -/
def Buffer.request (buffer : Buffer) : Request where
  bytes := buffer.bytes
  ne_nil := List.ne_nil_of_length_pos (by rw [buffer.length_eq]; exact Nat.zero_lt_succ _)
  length_le := Nat.le_of_eq buffer.length_eq

theorem read_request (buffer full : Buffer) : buffer.read full.request = full := by
  cases full with
  | mk bytes length_eq =>
    have hdrop : buffer.bytes.drop bytes.length = [] :=
      List.drop_of_length_le (by rw [buffer.length_eq, length_eq])
    simp only [Buffer.read, Buffer.request, hdrop, List.append_nil]

/-- Whatever was read before, requests that fill the buffer decide what it holds. -/
theorem runs_request (h : Keeping full) (uninit : Buffer) (k : Nat) :
    ∃ s, (connection uninit).runs (connection uninit).init
      (List.replicate (k + 1) full.request) = some s ∧ s.reading ∧ s.buffer = full := by
  obtain ⟨parsed, hparse, hkeep⟩ := exists_parse h.spaces h.phrase
  have hstep : ∀ s : Connection, s.reading →
      s.handle full.request = some ⟨full, true, some parsed⟩ := by
    intro s hs
    rw [Connection.handle, if_pos hs]
    simp only [read_request, hparse, Option.map_some, hkeep]
  have hcons : ∀ (s : Connection) (l : List Request), s.reading →
      (connection uninit).runs s (full.request :: l) =
        (connection uninit).runs ⟨full, true, some parsed⟩ l := by
    intro s l hs
    rw [System.runs, show (connection uninit).step s full.request = _ from hstep s hs,
      Option.bind_some]
  refine ⟨⟨full, true, some parsed⟩, ?_, rfl, rfl⟩
  rw [List.replicate_succ, hcons _ _ rfl]
  induction k with
  | zero => rfl
  | succ k ih => rw [List.replicate_succ, hcons _ _ rfl, ih]

/-- On connections that compute the same, what the buffer held does not matter. -/
theorem IsolatedAt.exists_parse (h : IsolatedAt uninit₁ uninit₂ (k + 1) request)
    (h₁ : Keeping full₁) (h₂ : Keeping full₂) : ∃ parsed,
      parse (full₁.read request).bytes = some parsed ∧
        parse (full₂.read request).bytes = some parsed := by
  obtain ⟨s₁, hruns₁, hs₁, hbuffer₁⟩ := runs_request h₁ uninit₁ k
  obtain ⟨s₂, hruns₂, hs₂, hbuffer₂⟩ := runs_request h₂ uninit₂ k
  obtain ⟨s₁', s₂', parsed, hstep₁, hstep₂, hp₁, hp₂⟩ :=
    h _ _ s₁ s₂ (List.length_replicate ..) (List.length_replicate ..) hruns₁ hs₁ hruns₂ hs₂
  have hparsed : ∀ {s s' : Connection}, s.handle request = some s' → s'.parsed = some parsed →
      parse (s.buffer.read request).bytes = some parsed := by
    intro s s' hstep hp
    rw [Connection.handle] at hstep
    split at hstep
    · obtain ⟨parsed', hparse, rfl⟩ := Option.map_eq_some_iff.mp hstep
      rw [hparse]
      exact hp
    · cases hstep
  exact ⟨parsed, hbuffer₁ ▸ hparsed hstep₁ hp₁, hbuffer₂ ▸ hparsed hstep₂ hp₂⟩

/-- A buffer with zeros behind the bytes. -/
def fill (bytes : List UInt8) (h : bytes.length ≤ 8192) : Buffer where
  bytes := bytes ++ List.replicate (8192 - bytes.length) 0
  length_eq := by
    rw [List.length_append, List.length_replicate]
    omega

theorem keeping_fill {bytes : List UInt8} {h : bytes.length ≤ 8192} (hspaces : 2 ≤ bytes.count 32)
    (hphrase : phrase.map toupper <:+: bytes.map toupper) : Keeping (fill bytes h) where
  spaces := by
    rw [fill, List.count_append]
    omega
  phrase := by
    rw [fill, List.map_append]
    exact List.infix_append_of_infix_left hphrase

theorem drop_fill {bytes : List UInt8} {h : bytes.length ≤ 8192} {n : Nat} :
    (fill bytes h).bytes.drop n =
      bytes.drop n ++ List.replicate (8192 - bytes.length - (n - bytes.length)) 0 := by
  rw [fill, List.drop_append, List.drop_replicate]

/-- The phrase at the start of the buffer, and a space after it. -/
def phraseBuffer : Buffer := fill (phrase ++ [32]) (by decide)

/-- The phrase behind two spaces. -/
def paddedBuffer (c : UInt8) : Buffer :=
  fill (List.replicate 30 c ++ 32 :: 32 :: phrase) (by
    rw [List.length_append, List.length_replicate]
    decide)

theorem keeping_phraseBuffer : Keeping phraseBuffer :=
  keeping_fill (by decide) ((List.prefix_append ..).isInfix.map toupper)

theorem keeping_paddedBuffer (c : UInt8) : Keeping (paddedBuffer c) := by
  refine keeping_fill ?_ (List.IsSuffix.isInfix ?_)
  · rw [List.count_append, List.count_cons_self, List.count_cons_self]
    omega
  · exact List.IsSuffix.map toupper ⟨List.replicate 30 c ++ [32, 32], by
      rw [List.append_assoc]
      rfl⟩

/-- Before the second space, the data goes into the method and the path as it is. -/
theorem method_append_path (hdata : data.count 32 < 2) (hpath : 32 ∉ path)
    (h : parse (data ++ (path ++ 32 :: 32 :: rest)) = some parsed) :
    parsed.method ++ parsed.path = data.filter (· ≠ 32) ++ path := by
  have hself : ∀ {l : List UInt8}, 32 ∉ l → l.filter (· ≠ 32) = l := by
    intro l hl
    refine List.filter_eq_self.mpr fun c hc => decide_eq_true ?_
    rintro rfl
    exact hl hc
  by_cases hmem : 32 ∈ data
  · obtain ⟨method, pre, rfl, hm⟩ := List.eq_append_cons_of_mem hmem
    have hpre : 32 ∉ pre := by
      rw [List.count_append, List.count_cons_self] at hdata
      exact List.count_eq_zero.mp (by omega)
    have hsplit : method ++ 32 :: pre ++ (path ++ 32 :: 32 :: rest) =
        method ++ 32 :: ((pre ++ path) ++ 32 :: 32 :: rest) := by simp
    rw [hsplit, parse_append hm (by simp [hpre, hpath])] at h
    obtain rfl := Option.some.inj h
    rw [List.filter_append, List.filter_cons_of_neg (by decide), hself hm, hself hpre]
    exact (List.append_assoc ..).symm
  · have hsplit : data ++ (path ++ 32 :: 32 :: rest) =
        (data ++ path) ++ 32 :: ([] ++ 32 :: rest) := by simp
    rw [hsplit, parse_append (by simp [hmem, hpath]) List.not_mem_nil] at h
    obtain rfl := Option.some.inj h
    rw [hself hmem, List.append_nil]

/-- The two spaces have to be in the request. -/
theorem IsolatedAt.spaces (h : IsolatedAt uninit₁ uninit₂ (k + 1) request) :
    2 ≤ request.bytes.count 32 := by
  by_contra hlt
  rw [not_le] at hlt
  rcases Nat.lt_or_ge request.bytes.length 23 with hshort | hlong
  · -- the bytes behind the request go into the method or the path
    obtain ⟨parsed, h₁, h₂⟩ := h.exists_parse (keeping_paddedBuffer 0) (keeping_paddedBuffer 1)
    have hread : ∀ c : UInt8, ∃ rest, ((paddedBuffer c).read request).bytes = request.bytes ++
        (List.replicate (30 - request.bytes.length) c ++ 32 :: 32 :: rest) := by
      intro c
      have hdrop : ∃ rest, (paddedBuffer c).bytes.drop request.bytes.length =
          List.replicate (30 - request.bytes.length) c ++ 32 :: 32 :: rest := by
        rw [paddedBuffer, drop_fill,
          List.drop_append_of_le_length (by rw [List.length_replicate]; omega),
          List.drop_replicate, List.append_assoc, List.cons_append, List.cons_append]
        exact ⟨_, rfl⟩
      obtain ⟨rest, hdrop⟩ := hdrop
      exact ⟨rest, congrArg (request.bytes ++ ·) hdrop⟩
    obtain ⟨rest₁, hread₁⟩ := hread 0
    obtain ⟨rest₂, hread₂⟩ := hread 1
    rw [hread₁] at h₁
    rw [hread₂] at h₂
    have hne : ∀ c : UInt8, c ≠ 32 → 32 ∉ List.replicate (30 - request.bytes.length) c :=
      fun c hc hmem => hc (List.eq_of_mem_replicate hmem).symm
    have heq := (method_append_path hlt (hne 0 (by decide)) h₁).symm.trans
      (method_append_path hlt (hne 1 (by decide)) h₂)
    have hmem : (0 : UInt8) ∈ List.replicate (30 - request.bytes.length) 1 := by
      rw [← List.append_cancel_left heq, List.mem_replicate]
      exact ⟨by omega, rfl⟩
    exact absurd (List.eq_of_mem_replicate hmem) (by decide)
  · -- the parser reads outside the buffer
    obtain ⟨parsed, h₁, -⟩ := h.exists_parse keeping_phraseBuffer keeping_phraseBuffer
    have hdrop : (phrase ++ [32]).drop request.bytes.length = [] :=
      List.drop_of_length_le (Nat.le_trans (by decide) hlong)
    have hcount : (phraseBuffer.read request).bytes.count 32 = request.bytes.count 32 := by
      change (request.bytes ++ phraseBuffer.bytes.drop request.bytes.length).count 32 = _
      rw [phraseBuffer, drop_fill, hdrop, List.nil_append, List.count_append, List.count_replicate]
      rfl
    rw [parse_eq_none (by omega)] at h₁
    cases h₁

theorem toupper_eq_space : toupper c = 32 ↔ c = 32 := by
  unfold toupper
  split <;> grind

theorem count_map_toupper : (data.map toupper).count 32 = data.count 32 := by
  induction data with
  | nil => rfl
  | cons c data ih =>
    rw [List.map_cons, List.count_cons, List.count_cons, ih]
    simp only [beq_iff_eq, toupper_eq_space]

/-- The phrase ends where it ends in the buffer. -/
theorem getElem?_phraseBuffer (hj : 22 ≤ j) : (phraseBuffer.bytes.map toupper)[j]? ≠ some 69 := by
  intro h
  have hlen : (phrase.map toupper).length = 22 := rfl
  have hmap : phraseBuffer.bytes.map toupper = phrase.map toupper ++
      ([32].map toupper ++ (List.replicate (8192 - (phrase ++ [32]).length) 0).map toupper) := by
    rw [phraseBuffer, fill, List.map_append, List.map_append, List.append_assoc]
  rw [hmap, List.getElem?_append_right (by omega)] at h
  rcases List.mem_append.mp (List.mem_of_getElem? h) with h32 | h0
  · exact absurd (List.mem_singleton.mp h32) (by decide)
  · rw [List.map_replicate] at h0
    exact absurd (List.eq_of_mem_replicate h0) (by decide)

/-- A buffer with the phrase in it that does not complete the request. -/
theorem not_infix_phraseBuffer (hspaces : 2 ≤ request.bytes.count 32)
    (h : ¬ phrase.map toupper <:+: request.bytes.map toupper) :
    ¬ phrase.map toupper <:+: (phraseBuffer.read request).bytes.map toupper := by
  rintro ⟨s, t, hst⟩
  have hlen : (phrase.map toupper).length = 22 := rfl
  have hbytes : (phraseBuffer.read request).bytes.map toupper = request.bytes.map toupper ++
      (phraseBuffer.bytes.map toupper).drop request.bytes.length := by
    rw [← List.map_drop]
    exact List.map_append
  have hrequest : request.bytes.map toupper <+: s ++ phrase.map toupper ++ t := by
    rw [hst, hbytes]
    exact List.prefix_append ..
  rcases Nat.lt_or_ge request.bytes.length (s.length + 22) with hlt | hge
  · -- the phrase ends behind the request, so it starts where the buffer had it
    have hlast : (s ++ phrase.map toupper ++ t)[s.length + 21]? = some 69 := by
      rw [List.append_assoc, List.getElem?_append_right (Nat.le_add_right ..),
        Nat.add_sub_cancel_left]
      rfl
    have hbuffer : (phraseBuffer.bytes.map toupper)[s.length + 21]? = some 69 := by
      rw [← hlast, hst, hbytes, List.getElem?_append_right (by rw [List.length_map]; omega),
        List.getElem?_drop, List.length_map]
      congr 1
      omega
    have hs : s = [] := by
      refine List.eq_nil_of_length_eq_zero ?_
      by_contra hne
      exact getElem?_phraseBuffer (by omega) hbuffer
    rw [hs, List.nil_append] at hrequest
    have hprefix : request.bytes.map toupper <+: phrase.map toupper :=
      List.prefix_of_prefix_length_le hrequest (List.prefix_append ..) (by
        rw [List.length_map, hlen]
        rw [hs, List.length_nil] at hlt
        omega)
    have hcount := hprefix.sublist.count_le 32
    rw [count_map_toupper, count_map_toupper, show phrase.count 32 = 1 by decide] at hcount
    omega
  · have hmap : (request.bytes.map toupper).length = request.bytes.length := List.length_map toupper
    refine h (List.IsInfix.trans (List.suffix_append s _).isInfix (List.IsPrefix.isInfix ?_))
    exact List.prefix_of_prefix_length_le (List.prefix_append _ t) hrequest (by
      rw [List.length_append, hmap, hlen]
      omega)

/-- No bytes behind the request may complete the phrase. -/
theorem IsolatedAt.complete (h : IsolatedAt uninit₁ uninit₂ (k + 1) request) :
    phrase.map toupper <:+: request.bytes.map toupper ∨
      ∀ u v, phrase.map toupper = u ++ v → u <:+ request.bytes.map toupper →
        8192 < request.bytes.length + v.length := by
  refine or_iff_not_imp_left.mpr fun hphrase u v huv hu => ?_
  by_contra hle
  rw [not_lt] at hle
  obtain ⟨s, hs⟩ := hu
  have hv : (phrase.drop u.length).map toupper = v := by
    rw [List.map_drop, huv, List.drop_left]
  have hlength : ((phrase.drop u.length).map toupper).length = (phrase.drop u.length).length :=
    List.length_map toupper
  have hlen : (request.bytes ++ phrase.drop u.length).length ≤ 8192 := by
    rw [List.length_append, ← hlength, hv]
    exact hle
  have hinfix : phrase.map toupper <:+: (request.bytes ++ phrase.drop u.length).map toupper := by
    rw [List.map_append, hv, ← hs, List.append_assoc, ← huv]
    exact (List.suffix_append ..).isInfix
  have hspaces : 2 ≤ (request.bytes ++ phrase.drop u.length).count 32 := by
    rw [List.count_append]
    have := h.spaces
    omega
  obtain ⟨rest, hrest⟩ : ∃ rest, (fill _ hlen).bytes = request.bytes ++ rest :=
    ⟨_, List.append_assoc ..⟩
  have hread : ((fill _ hlen).read request).bytes = (fill _ hlen).bytes := by
    change request.bytes ++ (fill _ hlen).bytes.drop request.bytes.length = _
    rw [hrest, List.drop_left]
  have hkeeping : Keeping (fill _ hlen) := keeping_fill hspaces hinfix
  obtain ⟨parsed, h₁, h₂⟩ := h.exists_parse keeping_phraseBuffer hkeeping
  rw [hread] at h₂
  refine not_infix_phraseBuffer h.spaces hphrase ((keepAlive_iff h₁).mp ?_)
  exact (keepAlive_iff h₂).mpr hkeeping.phrase

/-- A request gets its method, path and `keepAlive` from its own bytes exactly when it is
self-contained. -/
theorem isolated_iff (request : Request) : Isolated request ↔ SelfContained request := by
  refine ⟨fun h => ?_, SelfContained.isolated⟩
  have hat := h phraseBuffer phraseBuffer 1
  exact ⟨hat.spaces, hat.complete⟩

/-- `GET / HTTP/1.1` and the end of the header. -/
def getRequest : Request where
  bytes := [71, 69, 84, 32, 47, 32, 72, 84, 84, 80, 47, 49, 46, 49, 13, 10, 13, 10]
  ne_nil := by decide
  length_le := by decide

/-- Behind a longer request that keeps the connection, a request without the phrase keeps it too. -/
theorem not_isolated_getRequest : ¬ ∀ request, Isolated request := by
  intro h
  rcases (h getRequest phraseBuffer phraseBuffer 1).complete with hin | hlong
  · exact absurd hin (by decide)
  · exact absurd (hlong [] _ rfl (List.nil_suffix ..)) (by decide)

end KeepAlive
