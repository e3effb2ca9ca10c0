import OsLabs.Lib.CString
import OsLabs.Tiny.Headers

/-!
# Requests of `tiny.c`

The strings that `doit`, `parse_uri` and `clienterror` build in their arrays. A local array
is all zeros where the source writes it before it reads it.
-/

namespace OsLabs.Tiny

open OsLabs.CString OsLabs.Rio

def MAXBUF : ℕ := 8192

def bytes (s : String) : List Byte := s.toList.map fun c => UInt8.ofNat c.toNat

/-! ## Strings in arrays -/

/-- The string in an array; without a null byte it is read beyond the array. -/
def readString (buf : List Byte) : Except Fault (List Byte) :=
  if 0 ∈ buf then .ok (str buf 0) else .error .outside

/-- The string and a null byte are written to an array. -/
def writeString (dst s : List Byte) : Except Fault (List Byte) :=
  if s.length < dst.length then .ok (s ++ 0 :: dst.drop (s.length + 1)) else .error .outside

def strcat (dst src : List Byte) : Except Fault (List Byte) := do
  let d ← readString dst
  let s ← readString src
  writeString dst (d ++ s)

/-- `sprintf(dst, "%s...", dst)` -/
def sprintfOn (dst s : List Byte) : Except Fault (List Byte) := do
  let d ← readString dst
  writeString dst (d ++ s)

/-- `strcasecmp` is not zero. -/
def strcasecmp (s t : List Byte) : Bool :=
  let tolower := fun c : Byte => if 65 ≤ c ∧ c ≤ 90 then c + 32 else c
  s.map tolower ≠ t.map tolower

/-! ## `sscanf` -/

def isspace (c : Byte) : Bool := c = 32 ∨ 9 ≤ c ∧ c ≤ 13

/-- `%s`: the next word and the input behind it, unless the input ends. -/
def nextWord (s : List Byte) : Option (List Byte × List Byte) :=
  let s := s.dropWhile isspace
  if s = [] then none else some (s.takeWhile (!isspace ·), s.dropWhile (!isspace ·))

/-- The arrays of `doit`, with what they hold at first. -/
structure Arrays where
  method : List Byte
  uri : List Byte
  version : List Byte
  filename : List Byte
  cgiargs : List Byte

/-- `sscanf(buf, "%s %s %s", method, uri, version)` -/
def sscanf (s : List Byte) (a : Arrays) : Except Fault Arrays :=
  match nextWord s with
  | none => .ok a
  | some (w, s) => do
      let method ← writeString a.method w
      match nextWord s with
      | none => .ok { a with method }
      | some (w, s) => do
          let uri ← writeString a.uri w
          match nextWord s with
          | none => .ok { a with method, uri }
          | some (w, _) => do
              let version ← writeString a.version w
              .ok { a with method, uri, version }

/-! ## `parse_uri` -/

def isStatic (uri : List Byte) : Bool := ¬ bytes "cgi-bin" <:+: uri

def SLASH : Byte := 47

def QUESTION : Byte := 63

/-- `parse_uri`: whether the content is static, `filename` and `cgiargs`. -/
def parse_uri (uri filename cgiargs : List Byte) :
    Except Fault (Bool × List Byte × List Byte) := do
  let u ← readString uri
  if isStatic u then
    let cgiargs ← writeString cgiargs []
    let filename ← writeString filename (bytes ".")
    let filename ← strcat filename uri
    match u.getLast? with
    | none => .error .outside
    | some last =>
        if last = SLASH then
          let filename ← strcat filename (bytes "home.html" ++ [0])
          return (true, filename, cgiargs)
        else return (true, filename, cgiargs)
  else
    let ptr := u.idxOf QUESTION
    if ptr < u.length then
      let cgiargs ← writeString cgiargs (u.drop (ptr + 1))
      let uri := uri.set ptr 0
      let filename ← writeString filename (bytes ".")
      let filename ← strcat filename uri
      return (false, filename, cgiargs)
    else
      let cgiargs ← writeString cgiargs []
      let filename ← writeString filename (bytes ".")
      let filename ← strcat filename uri
      return (false, filename, cgiargs)

/-! ## `clienterror` -/

/-- The constant arguments of `clienterror`. -/
structure ErrorMessage where
  errnum : List Byte
  shortmsg : List Byte
  longmsg : List Byte
  deriving DecidableEq

def notImplemented : ErrorMessage :=
  ⟨bytes "501", bytes "Not Implemented", bytes "Tiny does not implement this method"⟩

def notFound : ErrorMessage :=
  ⟨bytes "404", bytes "Not found", bytes "Tiny couldn't find this file"⟩

def notReadable : ErrorMessage :=
  ⟨bytes "403", bytes "Forbidden", bytes "Tiny couldn't read the file"⟩

def notExecutable : ErrorMessage :=
  ⟨bytes "403", bytes "Forbidden", bytes "Tiny couldn't run the CGI program"⟩

/-- `%d` of a number that is not negative. -/
def decimal (n : ℕ) : List Byte :=
  if n = 0 then bytes "0" else ((Nat.digits 10 n).map fun d => UInt8.ofNat (48 + d)).reverse

/-- The array `body` of `clienterror`. -/
def errorBody (cause : List Byte) (m : ErrorMessage) : Except Fault (List Byte) := do
  let body ← writeString (List.replicate MAXBUF 0) (bytes "<html><title>Tiny Error</title>")
  let body ← sprintfOn body (bytes "<body bgcolor=ffffff>\r\n")
  let body ← sprintfOn body (m.errnum ++ bytes ": " ++ m.shortmsg ++ bytes "\r\n")
  let cause ← readString cause
  let body ← sprintfOn body (bytes "<p>" ++ m.longmsg ++ bytes ": " ++ cause ++ bytes "\r\n")
  sprintfOn body (bytes "<hr><em>The Tiny Web server</em>\r\n")

/-- `clienterror`: what it writes to the client. -/
def clienterror (cause : List Byte) (m : ErrorMessage) : Except Fault (List (List Byte)) := do
  let body ← errorBody cause m
  let body ← readString body
  let buf ← writeString (List.replicate MAXLINE 0)
    (bytes "HTTP/1.0 " ++ m.errnum ++ bytes " " ++ m.shortmsg ++ bytes "\r\n")
  let status ← readString buf
  let buf ← writeString buf (bytes "Content-type: text/html\r\n")
  let type ← readString buf
  let buf ← writeString buf (bytes "Content-length: " ++ decimal body.length ++ bytes "\r\n\r\n")
  let length ← readString buf
  return [status, type, length, body]

/-! ## `doit` -/

/-- What `doit` looks at in the result of `stat`. -/
structure FileStatus where
  regular : Bool
  readable : Bool
  executable : Bool

inductive Response
  | error (written : List (List Byte))
  | static (filename : List Byte)
  | dynamic (filename cgiargs : List Byte)

/-- `doit` behind `parse_uri`. -/
def serve (stat : List Byte → Option FileStatus) (is_static : Bool) (filename cgiargs : List Byte) :
    Except Fault Response := do
  let name ← readString filename
  match stat name with
  | none =>
      let written ← clienterror filename notFound
      return .error written
  | some st =>
      if is_static then
        if !st.regular || !st.readable then
          let written ← clienterror filename notReadable
          return .error written
        else return .static name
      else
        if !st.regular || !st.executable then
          let written ← clienterror filename notExecutable
          return .error written
        else
          let args ← readString cgiargs
          return .dynamic name args

/-- `doit` behind the read of the request line `buf`. -/
def doit (stat : List Byte → Option FileStatus) (buf : List Byte) (a : Arrays) :
    Except Fault Response := do
  let line ← readString buf
  let a ← sscanf line a
  if strcasecmp (str a.method 0) (bytes "GET") then
    let written ← clienterror a.method notImplemented
    return .error written
  else
    -- `read_requesthdrs` stands here, with an array of its own
    let (is_static, filename, cgiargs) ← parse_uri a.uri a.filename a.cgiargs
    serve stat is_static filename cgiargs

end OsLabs.Tiny
