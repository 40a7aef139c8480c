import FitProjects.IPK.KeepAlive
import FitProjects.Lib.Hex
import FitProjects.Lib.Decimal

/-! # Requests and replies

What the client of `IPK/proj2` asks for and what the server answers without chunks: `url_decode`,
`Uri`, `RequestParser::handle` and `reply`. The file system of the server is a parameter. -/

namespace Http

open KeepAlive (Parsed)

/-! ## Addresses -/

/-- The prefix `0x` is read even if no digit follows. -/
def skipPrefix : List UInt8 → List UInt8
  | 48 :: c :: s => if c = 120 ∨ c = 88 then s else 48 :: c :: s
  | s => s

/-- `is >> std::hex >> value`, for texts that are too short for an overflow. -/
def extractHex (is : List UInt8) : Option Int :=
  let (negative, is) := Hex.sign (is.dropWhile isspace)
  let digits := (skipPrefix is).takeWhile Hex.isDigit
  if digits = [] then none
  else some (if negative then -Hex.number digits else Hex.number digits)

/-- The loop of `url_decode`: whether it succeeds, and `out`, which keeps what was decoded before an
error. -/
def urlDecodeLoop : List UInt8 → List UInt8 → Bool × List UInt8
  | [], out => (true, out)
  | c :: rest, out =>
    if c = 37 then
      match rest with
      | a :: b :: rest =>
        match extractHex [a, b] with
        | some value => urlDecodeLoop rest (out ++ [UInt8.ofInt value])
        | none => (false, out)
      | _ => (false, out)
    else if c = 43 then urlDecodeLoop rest (out ++ [32])
    else urlDecodeLoop rest (out ++ [c])

def urlDecode (text : List UInt8) : Bool × List UInt8 := urlDecodeLoop text []

inductive UriState
  | s_hostname
  | s_port
  | s_path

structure Uri where
  server : List UInt8
  port : List UInt8
  path : List UInt8

namespace Uri

/-- A character of the loop of `Uri::Uri`. -/
def scan (state : UriState) (uri : Uri) (c : UInt8) : UriState × Uri :=
  match state with
  | .s_hostname =>
    if c = 47 then (.s_path, uri)
    else if c = 58 then (.s_port, uri)
    else (state, { uri with server := uri.server ++ [c] })
  | .s_port =>
    if c = 47 then (.s_path, uri)
    else (state, { uri with port := uri.port ++ [c] })
  | .s_path => (state, { uri with path := uri.path ++ [c] })

def loop (start : UriState × Uri) (text : List UInt8) : UriState × Uri :=
  text.foldl (fun s c => scan s.1 s.2 c) start

/-- `Uri::Uri`; it does not ask whether the decoding succeeded. -/
def parse (text : List UInt8) : Uri :=
  let uri := (loop (.s_hostname, ⟨[], [], [47]⟩) (urlDecode text).2).2
  if uri.port = [] then { uri with port := literal "80" } else uri

/-- The request of `Client::Client`. -/
def request (uri : Uri) : List UInt8 :=
  literal "GET " ++ uri.path ++ literal " HTTP/1.1\r\n" ++
    literal "Host: " ++ uri.server ++ literal "\r\n" ++
    literal "Accept: */*\r\n" ++
    literal "Connection: Keep-Alive\r\n\r\n"

end Uri

/-! ## Replies -/

inductive StatusType
  | ok
  | bad_request
  | not_found
  deriving DecidableEq

namespace StatusType

def code : StatusType → Nat
  | ok => 200
  | bad_request => 400
  | not_found => 404

/-- `status::to_buffer` -/
def toBuffer : StatusType → List UInt8
  | ok => literal "HTTP/1.1 200 OK\r\n"
  | bad_request => literal "HTTP/1.1 400 Bad Request\r\n"
  | not_found => literal "HTTP/1.1 404 Not Found\r\n"

/-- `reply_strings::to_string` -/
def toString : StatusType → List UInt8
  | ok => []
  | bad_request =>
    literal "<html><head><title>Bad Request</title></head>" ++
      literal "<body><h1>400 Bad Request</h1></body></html>"
  | not_found =>
    literal "<html><head><title>Not Found</title></head>" ++
      literal "<body><h1>404 Not Found</h1></body></html>"

end StatusType

structure Header where
  name : List UInt8
  value : List UInt8

/-- The line of a header without the line feed. -/
def Header.line (h : Header) : List UInt8 := h.name ++ [58, 32] ++ h.value ++ [13]

structure Reply where
  status : StatusType
  headers : List Header
  content : List UInt8

namespace Reply

def toBuffers (r : Reply) : List (List UInt8) :=
  r.status.toBuffer ::
    (r.headers.flatMap fun h => [h.name, [58, 32], h.value, [13, 10]]) ++ [[13, 10], r.content]

/-- What the connection writes. -/
def bytes (r : Reply) : List UInt8 := r.toBuffers.flatten

def stockReply (status : StatusType) : Reply where
  status := status
  headers := [⟨literal "Content-Length", Decimal.print status.toString.length⟩,
    ⟨literal "Content-Type", literal "text/html"⟩]
  content := status.toString

end Reply

/-! ## The server -/

/-- What the server sees of the files: which paths are directories, which exist, the bytes of a file
that can be opened, and the names in a directory. The queries return; an exception of
`boost::filesystem`, as for a name that is too long, ends the server without a reply. -/
structure FileSystem where
  isDirectory : List UInt8 → Bool
  pathExists : List UInt8 → Bool
  openFile : List UInt8 → Option (List UInt8)
  entries : List UInt8 → List (List UInt8)

/-- `boost::filesystem::path::extension`. -/
def extension (path : List UInt8) : List UInt8 :=
  let filename := (path.reverse.takeWhile (· ≠ 47)).reverse
  let suffix := (filename.reverse.takeWhile (· ≠ 46)).reverse
  if filename = [46] ∨ filename = [46, 46] ∨ suffix = filename then [] else 46 :: suffix

def ext2mime (ext : List UInt8) : List UInt8 :=
  if ext = literal ".gif" then literal "image/gif"
  else if ext = literal ".jpg" then literal "image/jpeg"
  else if ext = literal ".png" then literal "image/png"
  else if ext = literal ".htm" ∨ ext = literal ".html" then literal "text/html"
  else literal "text/plain"

/-- `RequestParser::doc` -/
def doc : List UInt8 := literal "www"

section
variable (fs : FileSystem)

/-- The cells that `gen_list` writes for a name. -/
def genEntry (path name : List UInt8) : List UInt8 :=
  literal "<tr><td valign=\"top\"><img src=" ++
    (if fs.isDirectory (path ++ [47] ++ name) then
      literal "\"/icons/folder.gif\" alt=\"[DIR]\"></td><td><a href="
    else if extension name = literal ".jpg" ∨ extension name = literal ".png" then
      literal "\"/icons/image2.gif\" alt=\"[IMG]\"></td><td><a href="
    else literal "\"/icons/image1.gif\" alt=\"[DOC]\"></td><td><a href=") ++
    name ++ literal ">" ++ name ++ literal "</a></td>"

def genList (path : List UInt8) : List UInt8 :=
  let pathx := path.drop doc.length
  literal "<html><head><title> Index of " ++ pathx ++
    literal "</title></head><body><h1>Index of " ++ pathx ++
    literal "<table><tr><th><img src=\"/icons/blank.gif\" alt = \"[ICO]\"></th><th>" ++
    literal "Name</a></th></tr>" ++
    literal "<tr><td valign=\"top\"><img src=\"/icons/back.gif\" alt=\"[DIR]\"></td>" ++
    literal "<td><a href=\"/\">Parent Directory</a> " ++
    (fs.entries path).flatMap (genEntry fs path) ++
    literal "</table><address>IPK 2015 Server(xmikus15) at localhost</address></body></html>"

/-- The reply with a content; `Connection` is the last header. -/
def okReply (keepAlive : Bool) (mime content : List UInt8) : Reply where
  status := .ok
  headers := [⟨literal "Content-Length", Decimal.print content.length⟩,
    ⟨literal "Content-Type", mime⟩] ++
    if keepAlive then [⟨literal "Connection", literal "Keep-Alive"⟩] else []
  content := content

/-- `RequestParser::handle` -/
def handle (parsed : Parsed) : Reply :=
  let decoded := urlDecode (doc ++ parsed.path)
  if decoded.1 = false then .stockReply .bad_request
  else
    let path := decoded.2
    let index := path ++ literal "/index.html"
    if fs.isDirectory path then
      if fs.pathExists index then
        match fs.openFile index with
        | none => .stockReply .not_found
        | some file => okReply parsed.keepAlive (literal "text/html") file
      else okReply parsed.keepAlive (literal "text/html") (genList fs path)
    else
      match fs.openFile path with
      | none => .stockReply .not_found
      | some file => okReply parsed.keepAlive (ext2mime (extension path)) file

/-- `Connection::read` without chunks: the reply to a request that one read gets. -/
def respond (buffer : KeepAlive.Buffer) (request : KeepAlive.Request) : Option Reply :=
  (KeepAlive.parse (buffer.read request).bytes).map (handle fs)

end

end Http
