import WebServer.Programs
import WebServer.RequestHandle

namespace WebServer.RequestCalls

open Message Process Segel
open RequestHandle (appendStats Locals Target requestParseURI requestGetFiletype sscanf strcasecmp)
open RequestQueue (Timeval ThreadsStats)
open ServerLog (int32)

/-- The calls on the connection name no descriptor. What the child of `fork` does up
to its `execve` is part of the call. -/
inductive Call
  | rioReadlineb (rio : Rio) (usrbuf : Bytes) (maxlen : Nat)
  | rioWriten (usrbuf : Bytes) (n : Nat)
  | stat (filename : Bytes)
  | openFile (pathname : Bytes)
  | close (fd : Int)
  | mmap (len fd : Int)
  | munmap
  | printf (bs : Bytes)
  | fork (cgiargs filename : Bytes)
  | waitPid (pid : Nat)
  | getLog
  | addToLog (data : Bytes) (dataLen : Int)

def Call.Answer : Call → Type
  | .rioReadlineb _ _ _ => Int × Bytes × Rio
  | .stat _ => Option StatBuf
  | .openFile _ => Int
  | .mmap _ _ => Option Bytes
  | .fork _ _ => Nat
  | .getLog => Int × Bytes
  | .rioWriten _ _ | .close _ | .munmap | .printf _ | .waitPid _ | .addToLog _ _ => Unit

/-- The wrappers that end the process when their call fails. -/
def Call.wrapped : Call → Bool
  | .stat _ | .printf _ | .getLog | .addToLog _ _ => false
  | _ => true

abbrev Calls (α : Type) := Prog Call Call.Answer α

def RioReadlineb (rio : Rio) (usrbuf : Bytes) (maxlen : Nat) : Calls (Int × Bytes × Rio) :=
  .ask (Call.rioReadlineb rio usrbuf maxlen)

def RioWriten (usrbuf : Bytes) (n : Nat) : Calls Unit := .ask (Call.rioWriten usrbuf n)

def stat (filename : Bytes) : Calls (Option StatBuf) := .ask (Call.stat filename)

def Open (pathname : Bytes) : Calls Int := .ask (Call.openFile pathname)

def Close (fd : Int) : Calls Unit := .ask (Call.close fd)

def Mmap (len fd : Int) : Calls (Option Bytes) := .ask (Call.mmap len fd)

def Munmap : Calls Unit := .ask Call.munmap

def printf (bs : Bytes) : Calls Unit := .ask (Call.printf bs)

def Fork (cgiargs filename : Bytes) : Calls Nat := .ask (Call.fork cgiargs filename)

def WaitPid (pid : Nat) : Calls Unit := .ask (Call.waitPid pid)

def getLog : Calls (Int × Bytes) := .ask Call.getLog

def addToLog (data : Bytes) (dataLen : Int) : Calls Unit := .ask (Call.addToLog data dataLen)

def requestError (cause errnum shortmsg longmsg : Bytes) (arrival dispatch : Timeval)
    (stats : ThreadsStats) : Calls Unit := do
  let body := str "<html><title>OS-HW3 Error</title>"
  let body := body ++ str "<body bgcolor=fffff>\r\n"
  let body := body ++ (errnum ++ str ": " ++ shortmsg ++ str "\r\n")
  let body := body ++ (str "<p>" ++ longmsg ++ str ": " ++ cause ++ str "\r\n")
  let body := body ++ str "<hr>OS-HW3 Web Server\r\n"
  let buf := str "HTTP/1.0 " ++ errnum ++ str " " ++ shortmsg ++ str "\r\n"
  RioWriten buf buf.length
  printf buf
  let buf := str "Content-Type: text/html\r\n"
  RioWriten buf buf.length
  printf buf
  let buf := str "Content-Length: " ++ decimal body.length ++ str "\r\n"
  let buf := appendStats buf stats arrival dispatch
  RioWriten buf buf.length
  printf buf
  RioWriten body body.length
  printf body

def readhdrsLoop : (fuel : Nat) → (buf : Bytes) → Rio → Calls Rio
  | 0, _, _ => .stuck
  | fuel + 1, buf, rio =>
      if buf = crlf then pure rio
      else do
        let (_, buf, rio) ← RioReadlineb rio buf MAXLINE
        readhdrsLoop fuel buf rio

def requestReadhdrs (fuel : Nat) (stale : Bytes) (rio : Rio) : Calls Rio := do
  let (_, buf, rio) ← RioReadlineb rio stale MAXLINE
  readhdrsLoop fuel buf rio

def requestServeDynamic (filename cgiargs : Bytes) (arrival dispatch : Timeval)
    (stats : ThreadsStats) : Calls Unit := do
  let buf := str "HTTP/1.0 200 OK\r\n"
  let buf := buf ++ str "Server: OS-HW3 Web Server\r\n"
  let buf := appendStats buf stats arrival dispatch
  RioWriten buf buf.length
  let pid ← Fork cgiargs filename
  WaitPid pid

def requestServeStatic (filename : Bytes) (filesize : Int) (arrival dispatch : Timeval)
    (stats : ThreadsStats) : Calls ThreadsStats := do
  let filetype := requestGetFiletype filename
  let srcfd ← Open filename
  if srcfd < 0 then
    let stats := { stats with statReq := stats.statReq - 1 }
    requestError filename (str "403") (str "Forbidden")
      (str "OS-HW3 Server could not read this file") arrival dispatch stats
    return stats
  if filesize = 0 then
    let stats := { stats with statReq := stats.statReq - 1 }
    Close srcfd
    requestError filename (str "403") (str "Forbidden")
      (str "OS-HW3 Server cannot map empty file") arrival dispatch stats
    return stats
  match ← Mmap filesize srcfd with
  | none =>
    let stats := { stats with statReq := stats.statReq - 1 }
    Close srcfd
    requestError filename (str "403") (str "Forbidden")
      (str "OS-HW3 Server could not read this file") arrival dispatch stats
    return stats
  | some srcp =>
    Close srcfd
    let buf := str "HTTP/1.0 200 OK\r\n"
    let buf := buf ++ str "Server: OS-HW3 Web Server\r\n"
    let buf := buf ++ (str "Content-Length: " ++ signed filesize ++ str "\r\n")
    let buf := buf ++ (str "Content-Type: " ++ filetype ++ str "\r\n")
    let buf := appendStats buf stats arrival dispatch
    RioWriten buf buf.length
    RioWriten srcp filesize.toNat
    Munmap
    return stats

def requestServePost (arrival dispatch : Timeval) (stats : ThreadsStats) : Calls Unit := do
  let (bodyLen, body) ← getLog
  let header := str "HTTP/1.0 200 OK\r\n"
  let header := header ++ str "Server: OS-HW3 Web Server\r\n"
  let header := header ++ (str "Content-Length: " ++ signed bodyLen ++ str "\r\n")
  let header := header ++ (str "Content-Type: " ++ str "text/plain" ++ str "\r\n")
  let header := appendStats header stats arrival dispatch
  RioWriten header header.length
  RioWriten body (bodyLen % 2 ^ 64).toNat

def requestGet (target : Target) (arrival dispatch : Timeval) (stats : ThreadsStats) :
    Calls ThreadsStats := do
  match ← stat target.filename with
  | none =>
    requestError target.filename (str "404") (str "Not found")
      (str "OS-HW3 Server could not find this file") arrival dispatch stats
    return stats
  | some sbuf =>
    if target.isStatic then
      if ¬ sbuf.isReg ∨ ¬ sbuf.irusr then
        requestError target.filename (str "403") (str "Forbidden")
          (str "OS-HW3 Server could not read this file") arrival dispatch stats
        return stats
      let stats := { stats with statReq := stats.statReq + 1 }
      let statsBuf := appendStats [] stats arrival dispatch
      let stats ← requestServeStatic target.filename (int32 sbuf.size) arrival dispatch stats
      addToLog statsBuf statsBuf.length
      return stats
    else
      if ¬ sbuf.isReg ∨ ¬ sbuf.ixusr then
        requestError target.filename (str "403") (str "Forbidden")
          (str "OS-HW3 Server could not run this CGI program") arrival dispatch stats
        return stats
      let stats := { stats with dynmReq := stats.dynmReq + 1 }
      let statsBuf := appendStats [] stats arrival dispatch
      requestServeDynamic target.filename target.cgiargs arrival dispatch stats
      addToLog statsBuf statsBuf.length
      return stats

def requestHandle (fuel : Nat) (buf : Bytes) (old : Locals) (arrival dispatch : Timeval)
    (stats : ThreadsStats) : Calls ThreadsStats := do
  let (n, buf, rio) ← RioReadlineb rioReadinitb buf MAXLINE
  if n ≤ 0 then
    return stats
  let found := sscanf buf old
  let stats := { stats with totalReq := stats.totalReq + 1 }
  if strcasecmp found.method (str "GET") then
    let _ ← requestReadhdrs fuel old.hdrs rio
    requestGet (requestParseURI found.uri found) arrival dispatch stats
  else if strcasecmp found.method (str "POST") then
    let stats := { stats with postReq := stats.postReq + 1 }
    requestServePost arrival dispatch stats
    return stats
  else
    requestError found.method (str "501") (str "Not Implemented")
      (str "OS-HW3 Server does not implement this method") arrival dispatch stats
    return stats

/-- The child of `requestServeDynamic` -/
def child (cgiargs filename : Bytes) : Sys Unit := do
  Setenv cgiargs
  Dup2
  Execve filename

def Call.perform : (c : Call) → Sys c.Answer
  | .rioReadlineb rio usrbuf maxlen => Segel.RioReadlineb rio usrbuf maxlen
  | .rioWriten usrbuf n => Segel.RioWriten usrbuf n
  | .stat filename => Segel.stat filename
  | .openFile pathname => Segel.Open pathname
  | .close _ => Segel.Close
  | .mmap len fd => Segel.Mmap len fd
  | .munmap => Segel.Munmap
  | .printf bs => Segel.printf bs
  | .fork cgiargs filename => Segel.Fork (child cgiargs filename)
  | .waitPid _ => Segel.WaitPid
  | .getLog => RequestHandle.getLog
  | .addToLog data dataLen => RequestHandle.addToLog data dataLen

section

variable (usrbuf bs filename cgiargs data : Bytes) (rio : Rio) (maxlen n pid : Nat) (len fd : Int)

@[simp] theorem RioReadlineb_run : (RioReadlineb rio usrbuf maxlen).run Call.perform =
    Segel.RioReadlineb rio usrbuf maxlen := run_ask _

@[simp] theorem RioWriten_run :
    (RioWriten usrbuf n).run Call.perform = Segel.RioWriten usrbuf n := run_ask _

@[simp] theorem stat_run : (stat filename).run Call.perform = Segel.stat filename := run_ask _

@[simp] theorem Open_run : (Open filename).run Call.perform = Segel.Open filename := run_ask _

@[simp] theorem Close_run : (Close fd).run Call.perform = Segel.Close := run_ask _

@[simp] theorem Mmap_run : (Mmap len fd).run Call.perform = Segel.Mmap len fd := run_ask _

@[simp] theorem Munmap_run : Munmap.run Call.perform = Segel.Munmap := run_ask _

@[simp] theorem printf_run : (printf bs).run Call.perform = Segel.printf bs := run_ask _

@[simp] theorem Fork_run :
    (Fork cgiargs filename).run Call.perform = Segel.Fork (child cgiargs filename) := run_ask _

@[simp] theorem WaitPid_run : (WaitPid pid).run Call.perform = Segel.WaitPid := run_ask _

@[simp] theorem getLog_run : getLog.run Call.perform = RequestHandle.getLog := run_ask _

@[simp] theorem addToLog_run :
    (addToLog data len).run Call.perform = RequestHandle.addToLog data len := run_ask _

end

theorem run_ite {c : Prop} [Decidable c] {α : Type} (x y : Calls α) :
    (if c then x else y).run Call.perform = if c then x.run Call.perform else y.run Call.perform := by
  split <;> rfl

variable (cause errnum shortmsg longmsg filename cgiargs : Bytes) (arrival dispatch : Timeval)
  (stats : ThreadsStats)

@[simp] theorem requestError_run :
    (requestError cause errnum shortmsg longmsg arrival dispatch stats).run Call.perform =
      RequestHandle.requestError cause errnum shortmsg longmsg arrival dispatch stats := by
  simp only [requestError, RequestHandle.requestError, run_bind, RioWriten_run, printf_run]

theorem readhdrsLoop_run (fuel : Nat) (buf : Bytes) (rio : Rio) :
    (readhdrsLoop fuel buf rio).run Call.perform = RequestHandle.readhdrsLoop fuel buf rio := by
  induction fuel generalizing buf rio with
  | zero => rfl
  | succ fuel ih =>
      rw [readhdrsLoop, RequestHandle.readhdrsLoop, run_ite]
      simp only [run_bind, RioReadlineb_run, ih, prog_pure, run_ret]

@[simp] theorem requestReadhdrs_run (fuel : Nat) (stale : Bytes) (rio : Rio) :
    (requestReadhdrs fuel stale rio).run Call.perform = RequestHandle.requestReadhdrs fuel stale rio := by
  simp only [requestReadhdrs, RequestHandle.requestReadhdrs, run_bind, RioReadlineb_run, readhdrsLoop_run]

@[simp] theorem requestServeDynamic_run :
    (requestServeDynamic filename cgiargs arrival dispatch stats).run Call.perform =
      RequestHandle.requestServeDynamic filename cgiargs arrival dispatch stats := by
  simp only [requestServeDynamic, RequestHandle.requestServeDynamic, run_bind, RioWriten_run, Fork_run,
    child, WaitPid_run]

@[simp] theorem requestServeStatic_run (filesize : Int) :
    (requestServeStatic filename filesize arrival dispatch stats).run Call.perform =
      RequestHandle.requestServeStatic filename filesize arrival dispatch stats := by
  simp only [requestServeStatic, RequestHandle.requestServeStatic, run_bind, run_ite, Open_run]
  congr
  funext srcfd
  by_cases hfd : srcfd < 0
  · simp only [if_pos hfd, requestError_run, prog_pure, run_ret]
  · by_cases hsize : filesize = 0
    · simp only [if_neg hfd, if_pos hsize, Close_run, requestError_run, prog_pure, run_ret]
    · simp only [if_neg hfd, if_neg hsize, Mmap_run]
      congr
      funext srcp
      cases srcp with
      | none => simp only [run_bind, Close_run, requestError_run, prog_pure, run_ret]
      | some srcp => simp only [run_bind, Close_run, RioWriten_run, Munmap_run, prog_pure, run_ret]

@[simp] theorem requestServePost_run :
    (requestServePost arrival dispatch stats).run Call.perform =
      RequestHandle.requestServePost arrival dispatch stats := by
  simp only [requestServePost, RequestHandle.requestServePost, run_bind, getLog_run, RioWriten_run]

@[simp] theorem requestGet_run (target : Target) :
    (requestGet target arrival dispatch stats).run Call.perform =
      RequestHandle.requestGet target arrival dispatch stats := by
  simp only [requestGet, RequestHandle.requestGet, run_bind, stat_run]
  congr
  funext found
  cases found with
  | none => simp only [run_bind, requestError_run, prog_pure, run_ret]
  | some sbuf =>
      simp only [run_ite, run_bind, requestError_run, requestServeStatic_run,
        requestServeDynamic_run, addToLog_run, prog_pure, run_ret]

/-- Where nothing else moves, these calls are `requestHandle`. -/
theorem requestHandle_run (fuel : Nat) (buf : Bytes) (old : Locals) :
    (requestHandle fuel buf old arrival dispatch stats).run Call.perform =
      RequestHandle.requestHandle fuel buf old arrival dispatch stats := by
  simp only [requestHandle, RequestHandle.requestHandle, run_bind, run_ite, RioReadlineb_run,
    prog_pure, run_ret, requestReadhdrs_run, requestGet_run, requestServePost_run, requestError_run]

end WebServer.RequestCalls
