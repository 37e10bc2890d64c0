import WebServer.RequestQueue
import WebServer.Segel
import WebServer.ServerLog

namespace WebServer.RequestHandle

open Message Process Segel
open RequestQueue (Timeval ThreadsStats)
open ServerLog (int32 sizeT)

/-- The seven lines of `append_stats` and the empty line it ends with. -/
def statsLines (stats : ThreadsStats) (arrival dispatch : Timeval) : List Bytes :=
  [str "Stat-Req-Arrival:: " ++ signed arrival.sec ++ str "." ++ padded 6 arrival.usec,
    str "Stat-Req-Dispatch:: " ++ signed dispatch.sec ++ str "." ++ padded 6 dispatch.usec,
    str "Stat-Thread-Id:: " ++ signed stats.id,
    str "Stat-Thread-Count:: " ++ signed stats.totalReq,
    str "Stat-Thread-Static:: " ++ signed stats.statReq,
    str "Stat-Thread-Dynamic:: " ++ signed stats.dynmReq,
    str "Stat-Thread-Post:: " ++ signed stats.postReq]

def appendStats (buf : Bytes) (stats : ThreadsStats) (arrival dispatch : Timeval) : Bytes :=
  let buf := buf ++ (str "Stat-Req-Arrival:: " ++ signed arrival.sec ++ str "." ++
    padded 6 arrival.usec ++ str "\r\n")
  let buf := buf ++ (str "Stat-Req-Dispatch:: " ++ signed dispatch.sec ++ str "." ++
    padded 6 dispatch.usec ++ str "\r\n")
  let buf := buf ++ (str "Stat-Thread-Id:: " ++ signed stats.id ++ str "\r\n")
  let buf := buf ++ (str "Stat-Thread-Count:: " ++ signed stats.totalReq ++ str "\r\n")
  let buf := buf ++ (str "Stat-Thread-Static:: " ++ signed stats.statReq ++ str "\r\n")
  let buf := buf ++ (str "Stat-Thread-Dynamic:: " ++ signed stats.dynmReq ++ str "\r\n")
  buf ++ (str "Stat-Thread-Post:: " ++ signed stats.postReq ++ str "\r\n\r\n")

/-- A `sprintf` of a buffer into itself appends to it. -/
def requestError (cause errnum shortmsg longmsg : Bytes) (arrival dispatch : Timeval)
    (stats : ThreadsStats) : Sys Unit := do
  let body := str "<html><title>OS-HW3 Error</title>"
  let body := body ++ str "<body bgcolor=fffff>\r\n"
  let body := body ++ (errnum ++ str ": " ++ shortmsg ++ str "\r\n")
  let body := body ++ (str "<p>" ++ longmsg ++ str ": " ++ cause ++ str "\r\n")
  let body := body ++ str "<hr>OS-HW3 Web Server\r\n"
  let buf := str "HTTP/1.0 " ++ errnum ++ str " " ++ shortmsg ++ str "\r\n"
  RioWriten buf buf.length
  printf buf
  let buf := str "Content-Type: text/html\r\n"
  RioWriten buf buf.length
  printf buf
  let buf := str "Content-Length: " ++ decimal body.length ++ str "\r\n"
  let buf := appendStats buf stats arrival dispatch
  RioWriten buf buf.length
  printf buf
  RioWriten body body.length
  printf body

/-- The loop of `requestReadhdrs`, with the string its buffer holds. -/
def readhdrsLoop : (fuel : Nat) → (buf : Bytes) → Rio → Sys Rio
  | 0, _, _ => fun _ => .unfinished
  | fuel + 1, buf, rio =>
      if buf = crlf then pure rio
      else do
        let (_, buf, rio) ← RioReadlineb rio buf MAXLINE
        readhdrsLoop fuel buf rio

/-- `stale` is the string the local buffer happens to hold. -/
def requestReadhdrs (fuel : Nat) (stale : Bytes) (rio : Rio) : Sys Rio := do
  let (_, buf, rio) ← RioReadlineb rio stale MAXLINE
  readhdrsLoop fuel buf rio

/-- The local strings of `requestHandle`, and the byte below `uri`. -/
structure Locals where
  method : Bytes
  uri : Bytes
  version : Bytes
  filename : Bytes
  cgiargs : Bytes
  below : UInt8
  hdrs : Bytes

structure Target where
  isStatic : Bool
  filename : Bytes
  cgiargs : Bytes

def requestParseURI (uri : Bytes) (old : Locals) : Target :=
  if str ".." <:+: uri then ⟨true, str "./public/home.html", old.cgiargs⟩
  else if ¬ str "cgi" <:+: uri then
    let filename := str "./public/" ++ uri
    let last := uri.getLast?.getD old.below
    ⟨true, if last = 47 then filename ++ str "home.html" else filename, []⟩
  else
    let path := uri.takeWhile fun b => decide (b ≠ 63)
    let cgiargs := (uri.dropWhile fun b => decide (b ≠ 63)).tail
    ⟨false, str "./public/" ++ path, cgiargs⟩

def requestGetFiletype (filename : Bytes) : Bytes :=
  if str ".html" <:+: filename then str "text/html"
  else if str ".gif" <:+: filename then str "image/gif"
  else if str ".jpg" <:+: filename then str "image/jpeg"
  else str "text/plain"

def requestServeDynamic (filename cgiargs : Bytes) (arrival dispatch : Timeval)
    (stats : ThreadsStats) : Sys Unit := do
  let buf := str "HTTP/1.0 200 OK\r\n"
  let buf := buf ++ str "Server: OS-HW3 Web Server\r\n"
  let buf := appendStats buf stats arrival dispatch
  RioWriten buf buf.length
  let _ ← Fork do
    Setenv cgiargs
    Dup2
    Execve filename
  WaitPid

/-- The counters afterwards are returned. The branches behind `Open` and `Mmap` are
there although these two do not return after a failure. -/
def requestServeStatic (filename : Bytes) (filesize : Int) (arrival dispatch : Timeval)
    (stats : ThreadsStats) : Sys ThreadsStats := do
  let filetype := requestGetFiletype filename
  let srcfd ← Open filename
  if srcfd < 0 then
    let stats := { stats with statReq := stats.statReq - 1 }
    requestError filename (str "403") (str "Forbidden")
      (str "OS-HW3 Server could not read this file") arrival dispatch stats
    return stats
  if filesize = 0 then
    let stats := { stats with statReq := stats.statReq - 1 }
    Close
    requestError filename (str "403") (str "Forbidden")
      (str "OS-HW3 Server cannot map empty file") arrival dispatch stats
    return stats
  match ← Mmap filesize srcfd with
  | none =>
    let stats := { stats with statReq := stats.statReq - 1 }
    Close
    requestError filename (str "403") (str "Forbidden")
      (str "OS-HW3 Server could not read this file") arrival dispatch stats
    return stats
  | some srcp =>
    Close
    let buf := str "HTTP/1.0 200 OK\r\n"
    let buf := buf ++ str "Server: OS-HW3 Web Server\r\n"
    let buf := buf ++ (str "Content-Length: " ++ signed filesize ++ str "\r\n")
    let buf := buf ++ (str "Content-Type: " ++ filetype ++ str "\r\n")
    let buf := appendStats buf stats arrival dispatch
    RioWriten buf buf.length
    RioWriten srcp filesize.toNat
    Munmap
    return stats

/-- `get_log`: the text with its terminator, and its length as an `int`. -/
def getLog : Sys (Int × Bytes) := fun w =>
  .returned (int32 w.os.log.length, w.os.log ++ [0]) w

def requestServePost (arrival dispatch : Timeval) (stats : ThreadsStats) : Sys Unit := do
  let (bodyLen, body) ← getLog
  let header := str "HTTP/1.0 200 OK\r\n"
  let header := header ++ str "Server: OS-HW3 Web Server\r\n"
  let header := header ++ (str "Content-Length: " ++ signed bodyLen ++ str "\r\n")
  let header := header ++ (str "Content-Type: " ++ str "text/plain" ++ str "\r\n")
  let header := appendStats header stats arrival dispatch
  RioWriten header header.length
  RioWriten body (bodyLen % 2 ^ 64).toNat

def addToLog (data : Bytes) (dataLen : Int) : Sys Unit := fun w =>
  .returned () (if 0 < dataLen then { w with logged := w.logged ++ [data.take dataLen.toNat] } else w)

def isspace (b : UInt8) : Bool := b = 32 || (9 ≤ b && b ≤ 13)

/-- One `%s` of `sscanf`: the token, if there is one, and what follows it. -/
def scanString (s : Bytes) : Option (Bytes × Bytes) :=
  let s := s.dropWhile isspace
  if s = [] then none else some (s.takeWhile fun b => !isspace b, s.dropWhile fun b => !isspace b)

/-- `sscanf(buf, "%s %s %s", method, uri, version)`: what is not found stays. -/
def sscanf (buf : Bytes) (old : Locals) : Locals :=
  match scanString buf with
  | none => old
  | some (method, rest) => match scanString rest with
    | none => { old with method := method }
    | some (uri, rest) => match scanString rest with
      | none => { old with method := method, uri := uri }
      | some (version, _) => { old with method := method, uri := uri, version := version }

def tolower (b : UInt8) : UInt8 := if 65 ≤ b ∧ b ≤ 90 then b + 32 else b

def strcasecmp (a b : Bytes) : Bool := a.map tolower = b.map tolower

def requestGet (target : Target) (arrival dispatch : Timeval) (stats : ThreadsStats) :
    Sys ThreadsStats := do
  match ← stat target.filename with
  | none =>
    requestError target.filename (str "404") (str "Not found")
      (str "OS-HW3 Server could not find this file") arrival dispatch stats
    return stats
  | some sbuf =>
    if target.isStatic then
      if ¬ sbuf.isReg ∨ ¬ sbuf.irusr then
        requestError target.filename (str "403") (str "Forbidden")
          (str "OS-HW3 Server could not read this file") arrival dispatch stats
        return stats
      let stats := { stats with statReq := stats.statReq + 1 }
      let statsBuf := appendStats [] stats arrival dispatch
      let stats ← requestServeStatic target.filename (int32 sbuf.size) arrival dispatch stats
      addToLog statsBuf statsBuf.length
      return stats
    else
      if ¬ sbuf.isReg ∨ ¬ sbuf.ixusr then
        requestError target.filename (str "403") (str "Forbidden")
          (str "OS-HW3 Server could not run this CGI program") arrival dispatch stats
        return stats
      let stats := { stats with dynmReq := stats.dynmReq + 1 }
      let statsBuf := appendStats [] stats arrival dispatch
      requestServeDynamic target.filename target.cgiargs arrival dispatch stats
      addToLog statsBuf statsBuf.length
      return stats

/-- `requestHandle`, with what its local variables happen to hold at the call. -/
def requestHandle (fuel : Nat) (buf : Bytes) (old : Locals) (arrival dispatch : Timeval)
    (stats : ThreadsStats) : Sys ThreadsStats := do
  let (n, buf, rio) ← RioReadlineb rioReadinitb buf MAXLINE
  if n ≤ 0 then
    return stats
  let found := sscanf buf old
  let stats := { stats with totalReq := stats.totalReq + 1 }
  if strcasecmp found.method (str "GET") then
    let _ ← requestReadhdrs fuel old.hdrs rio
    requestGet (requestParseURI found.uri found) arrival dispatch stats
  else if strcasecmp found.method (str "POST") then
    let stats := { stats with postReq := stats.postReq + 1 }
    requestServePost arrival dispatch stats
    return stats
  else
    requestError found.method (str "501") (str "Not Implemented")
      (str "OS-HW3 Server does not implement this method") arrival dispatch stats
    return stats

end WebServer.RequestHandle
