import WebServer.Message
import WebServer.Process

namespace WebServer.Segel

open Message Process

/-- `MAXLINE`, `MAXBUF` and `RIO_BUFSIZE` -/
def MAXLINE : Nat := 8192

structure StatBuf where
  isReg : Bool
  irusr : Bool
  ixusr : Bool
  size : Int

/-- What one `read` on the connection answers. -/
inductive ReadAnswer
  | data (bytes : Bytes) (some : bytes ≠ []) (fits : bytes.length ≤ 8192)
  | eintr
  | failed

/-- What one `write` on the connection answers; a short one takes at most `k + 1`
bytes. -/
inductive WriteAnswer
  | short (k : Nat)
  | eintr
  | failed

/-- The answers of the other calls a request makes: `content` is what the file of a
descriptor holds and `zeros` how much of its last page is behind its end, `execve` what
the program writes for a query string, and `log` the text that `get_log` copies. -/
structure Os where
  stat : Bytes → Option StatBuf
  openFd : Bytes → Option Nat
  content : Int → Bytes
  zeros : Int → Nat
  mmapOk : Bool
  munmapOk : Bool
  closeOk : Bool
  fork : Option Nat
  setenvOk : Bool
  dup2Ok : Bool
  waitpidOk : Bool
  execve : (filename query : Bytes) → Option Bytes
  log : Bytes

def Os.bare : Os :=
  ⟨fun _ => none, fun _ => none, fun _ => [], fun _ => 0, true, true, true, some 1, true, true, true,
    fun _ _ => none, []⟩

/-- One connection and what happens on it. When `input` is used up the client
has closed its side; when `writes` is used up every `write` takes all it is given.
`query` is the variable QUERY_STRING of the process. -/
structure World where
  os : Os
  input : List ReadAnswer
  writes : List WriteAnswer
  sent : Bytes
  stdout : Bytes
  query : Bytes
  logged : List Bytes

def connection (os : Os) (input : List ReadAnswer) (writes : List WriteAnswer) : World :=
  ⟨os, input, writes, [], [], [], []⟩

abbrev Sys (α : Type) := Proc World α

variable {α : Type}

/-- `unix_error`: the process prints a message and calls `exit`. -/
def unixError : Sys α := fun w => .exited w

def check (ok : Os → Bool) : Sys Unit := fun w =>
  if ok w.os then .returned () w else unixError w

/-- `rio_t`, as the unread bytes of its internal buffer. -/
structure Rio where
  unread : Bytes

def rioReadinitb : Rio := ⟨[]⟩

inductive ReadResult
  | got (bytes : Bytes)
  | eof
  | error

/-- `rio_read`: a refill when the internal buffer is empty, again after EINTR. -/
def rioRead (n : Nat) : Rio → List ReadAnswer → ReadResult × Rio × List ReadAnswer
  | ⟨b :: bs⟩, input => (.got ((b :: bs).take n), ⟨(b :: bs).drop n⟩, input)
  | ⟨[]⟩, [] => (.eof, ⟨[]⟩, [])
  | ⟨[]⟩, .eintr :: input => rioRead n ⟨[]⟩ input
  | ⟨[]⟩, .failed :: input => (.error, ⟨[]⟩, input)
  | ⟨[]⟩, .data bs _ _ :: input => rioRead n ⟨bs⟩ input

inductive LineResult
  | line (n : Nat) (bytes : Bytes)
  | eof
  | error

def readLoop : (k n : Nat) → (acc : Bytes) → Rio → List ReadAnswer →
    LineResult × Rio × List ReadAnswer
  | 0, n, acc, rio, input => (.line n acc, rio, input)
  | k + 1, n, acc, rio, input =>
      match rioRead 1 rio input with
      | (.got (c :: _), rio, input) =>
          if c = 10 then (.line n (acc ++ [c]), rio, input)
          else readLoop k (n + 1) (acc ++ [c]) rio input
      | (.got [], rio, input) | (.eof, rio, input) =>
          if n = 1 then (.eof, rio, input) else (.line n acc, rio, input)
      | (.error, rio, input) => (.error, rio, input)

def rioReadlineb (rio : Rio) (maxlen : Nat) (input : List ReadAnswer) :
    LineResult × Rio × List ReadAnswer :=
  readLoop (maxlen - 1) 1 [] rio input

/-- `Rio_readlineb` on a buffer that holds the string `buf`: its return value, the
string in the buffer afterwards, and the state of `rio`. At the end of the input
the buffer is left as it was. -/
def RioReadlineb (rio : Rio) (buf : Bytes) (maxlen : Nat) : Sys (Int × Bytes × Rio) := fun w =>
  match rioReadlineb rio maxlen w.input with
  | (.line n bs, rio, input) => .returned (n, cstr bs, rio) { w with input := input }
  | (.eof, rio, input) => .returned (0, buf, rio) { w with input := input }
  | (.error, _, input) => unixError { w with input := input }

/-- `rio_writen`: the bytes that reach the connection, whether all do, and the
answers left. -/
def rioWriten : List WriteAnswer → Bytes → Bytes × Bool × List WriteAnswer
  | writes, [] => ([], true, writes)
  | [], bs => (bs, true, [])
  | .eintr :: writes, bs => rioWriten writes bs
  | .failed :: writes, _ => ([], false, writes)
  | .short k :: writes, bs =>
      let r := rioWriten writes (bs.drop (k + 1))
      (bs.take (k + 1) ++ r.1, r.2)

/-- `Rio_writen` of `n` bytes from `usrbuf`. Where there are fewer, only short writes
succeed; any other one fails with EFAULT. -/
def RioWriten (usrbuf : Bytes) (n : Nat) : Sys Unit := fun w =>
  let fault : List WriteAnswer := if n ≤ usrbuf.length then [] else [.failed]
  let r := rioWriten (w.writes ++ fault) (usrbuf.take n)
  let w' := { w with sent := w.sent ++ r.1, writes := r.2.2 }
  if r.2.1 = true ∧ n ≤ usrbuf.length then .returned () w' else unixError w'

def stat (filename : Bytes) : Sys (Option StatBuf) := fun w => .returned (w.os.stat filename) w

def Open (pathname : Bytes) : Sys Int := fun w =>
  match w.os.openFd pathname with
  | some fd => .returned fd w
  | none => unixError w

def Close : Sys Unit := check Os.closeOk

def Os.mapped (os : Os) (fd : Int) : Bytes := os.content fd ++ List.replicate (os.zeros fd) 0

/-- The mapping of `len` bytes, as far as there are pages. A negative `len` is a huge
`size_t`. -/
def Mmap (len : Int) (fd : Int) : Sys (Option Bytes) := fun w =>
  if w.os.mmapOk ∧ 0 ≤ len then .returned (some ((w.os.mapped fd).take len.toNat)) w
  else unixError w

def Munmap : Sys Unit := check Os.munmapOk

def printf (bs : Bytes) : Sys Unit := fun w => .returned () { w with stdout := w.stdout ++ bs }

def Setenv (value : Bytes) : Sys Unit := fun w =>
  if w.os.setenvOk then .returned () { w with query := value } else unixError w

def Dup2 : Sys Unit := check Os.dup2Ok

/-- With its standard output on the connection, the process becomes the program at
`filename`, or fails and flushes what `printf` has left. -/
def Execve (filename : Bytes) : Sys Unit := fun w =>
  match w.os.execve filename w.query with
  | some output => .exited { w with sent := w.sent ++ output }
  | none => unixError { w with sent := w.sent ++ w.stdout }

/-- The child runs on a copy of the process, of which the connection is shared. -/
def Fork (child : Sys Unit) : Sys Nat := fun w =>
  match w.os.fork with
  | none => unixError w
  | some pid => match child w with
    | .returned _ w' | .exited w' => .returned (pid + 1) { w with sent := w'.sent }
    | .unfinished => .unfinished

def WaitPid : Sys Unit := check Os.waitpidOk

end WebServer.Segel
