import FTCache.Library.Posix
import FTCache.Messages
import Mathlib.Data.BitVec
import Mathlib.Data.List.Infix

namespace FTCache

open Posix Words

/-- `done` and `bytes_read` in the stack frame of a blocked call. -/
structure Cell where
  done : Bool := false
  bytesRead : ℤ := -1
  deriving DecidableEq

/-- The intercepted calls. `openFile` is an `open` or `open64` that the kernel
has answered with `fd`; one that fails never reaches the library. -/
inductive Call
  | openFile (path : Path) (flags : BitVec 32) (fd : Fd)
  | read (fd : Fd) (buf : Addr) (count : ℕ)
  | pread (fd : Fd) (buf : Addr) (count : ℕ) (offset : ℤ)
  | lseek (fd : Fd) (offset whence : ℤ)
  | close (fd : Fd)
  deriving DecidableEq

def Call.fd : Call → Fd
  | .openFile _ _ fd => fd
  | .read fd _ _ => fd
  | .pread fd _ _ _ => fd
  | .lseek fd _ _ => fd
  | .close fd => fd

/-- The arguments of a transfer as `ftc_client_comm_gen_read_rpc` gets them. -/
def Call.transfer : Call → Option (Fd × Addr × ℕ × ℤ)
  | .read fd buf count => some (fd, buf, count, -1)
  | .pread fd buf count offset => some (fd, buf, count, offset)
  | _ => none

theorem Call.fd_of_transfer {k : Call} {fd : Fd} {buf : Addr} {count : ℕ} {offset : ℤ}
    (h : k.transfer = some (fd, buf, count, offset)) : k.fd = fd := by
  cases k <;> simp_all [Call.transfer, Call.fd]

/-- What a call hands back: its value and the bytes it left in the buffer. -/
structure Result where
  ret : ℤ
  bytes : Bytes := []
  deriving DecidableEq

/-- A call blocked on the reply to `request`, with its frame at `cell`. -/
structure Pending where
  call : Call
  request : ℕ
  host : Host
  cell : Addr
  deriving DecidableEq

/-- A client process: the maps of the library, its descriptors and its memory. -/
structure Client where
  fdMap : PMap Fd Path
  fdRedirMap : PMap Fd Fd
  timeoutCounters : Host → ℕ
  addressCache : PMap Host Address
  kernel : Table Path
  memory : Memory UInt8
  cells : Addr → Cell
  seekDone : ℕ
  readRet : ℤ
  blocked : Option Pending

/-- The state handed to `HG_Forward` with the callback that gets it back. -/
inductive Callback
  | openCb (localFd : Fd) (cell : Addr)
  | readCb (buffer : Addr) (cell : Addr)
  | seekCb
  | none
  deriving DecidableEq

/-- A forwarded request. `path` is a history variable: `fd_map[fd]` at that moment. -/
structure Sent where
  host : Host
  path : Path
  request : Request
  callback : Callback
  deriving DecidableEq

/-- How a client process can stop inside the library. -/
inductive Fault
  | assertBuffer
  | assertForward
  | assertCompletion
  | undefinedAddress
  deriving DecidableEq

def timeoutLimit : ℕ := 3

def oAccmode : BitVec 32 := 3
def oRdonly : BitVec 32 := 0
def oWronly : BitVec 32 := 1
def oAppend : BitVec 32 := 0o2000

def portsMark : Path := ['.', 'p', 'o', 'r', 't', 's', '.', 'c', 'f', 'g', '.']

/-- `parent_path()` of a canonical path. -/
def parentPath (p : Path) : Path :=
  let dir := (p.reverse.dropWhile (· ≠ '/')).reverse
  if dir = ['/'] then ['/'] else dir.dropLast

/-- The path `ftc_track_file` records for a descriptor, when it records one. -/
def trackedPath (cfg : Config) (path : Path) (flags : BitVec 32) : Option Path :=
  if portsMark <:+: path then none
  else if flags &&& oAccmode = oWronly then none
  else if flags &&& oAppend ≠ 0 then none
  else
    match cfg.canonical path, cfg.dataDir with
    | none, _ => none
    | some p, some dir =>
      match cfg.canonical dir with
      | none => none
      | some test => if test <:+: parentPath p then some p else none
    | some p, none => if parentPath p = cfg.currentPath then some p else none

theorem trackedPath_canonical {cfg : Config} {path p p' : Path} {flags : BitVec 32}
    (h : trackedPath cfg path flags = some p') (hp : cfg.canonical path = some p) : p' = p := by
  unfold trackedPath at h
  grind

inductive Lookup
  | found (a : Address)
  | null
  | uninitialised
  deriving DecidableEq

/-- `ftc_client_comm_lookup_addr`, over the lines of the port file. -/
def ftcClientCommLookupAddr (ports : Option (List (Host × Address)))
    (cache : PMap Host Address) (rank : Host) : Lookup × PMap Host Address :=
  match cache rank, ports with
  | some a, _ => (.found a, cache)
  | none, none => (.null, cache)
  | none, some lines =>
    match lines.find? (·.1 = rank) with
    | some line => (.found line.2, cache.insert rank line.2)
    -- target_server is returned without having been set
    | none => (.uninitialised, cache)

namespace Client

variable (cfg : Config) (forwards : Bool) (cl : Client)

def ftcFileTracked (fd : Fd) : Bool := (cl.fdMap fd).isSome

/-- `timeout_counters[host] >= TIMEOUT_LIMIT`. -/
def overLimit (host : Host) : Prop := timeoutLimit ≤ cl.timeoutCounters host

instance (host : Host) : Decidable (cl.overLimit host) :=
  inferInstanceAs (Decidable (timeoutLimit ≤ cl.timeoutCounters host))

/-- The request of a transfer on a descriptor that stands for `accessfd`. -/
def transferIn (accessfd fd : Fd) (count : ℕ) (offset : ℤ) : RpcIn where
  inputVal := int32 count
  bulkSize := size64 count
  accessfd := accessfd
  localfd := fd
  offset := offset

/-- Handle creation and `HG_Forward`, as the request generators end: a handle
without an address is created, but cannot be forwarded. -/
def forward (sent : Client × Sent) : Lookup → Except Fault (Client × Sent)
  | .found _ => if forwards then .ok sent else .error .assertForward
  | .null => .error .assertForward
  | .uninitialised => .error .undefinedAddress

def lookup (host : Host) : Lookup × Client :=
  let r := ftcClientCommLookupAddr cfg.ports cl.addressCache host
  (r.1, { cl with addressCache := r.2 })

def ftcClientCommGenOpenRpc (host : Host) (path : Path) (fd : Fd) (cell : Addr) :
    Except Fault (Client × Sent) :=
  let (addr, cl) := cl.lookup cfg host
  forward forwards ({ cl with cells := Function.update cl.cells cell {} },
    ⟨host, path, .openRpc ⟨path, fd⟩, .openCb fd cell⟩) addr

def ftcClientCommGenReadRpc (host : Host) (path : Path) (fd : Fd) (buf : Addr) (count : ℕ)
    (offset : ℤ) (cell : Addr) : Except Fault (Client × Sent) :=
  let (addr, cl) := cl.lookup cfg host
  if buf = 0 then .error .assertBuffer
  else forward forwards ({ cl with
      fdRedirMap := cl.fdRedirMap.touch fd
      cells := Function.update cl.cells cell {} },
    ⟨host, path, .baseRpc (transferIn (cl.fdRedirMap.index fd) fd count offset),
      .readCb buf cell⟩) addr

def ftcClientCommGenSeekRpc (host : Host) (path : Path) (fd : Fd) (offset whence : ℤ) :
    Except Fault (Client × Sent) :=
  let (addr, cl) := cl.lookup cfg host
  forward forwards ({ cl with
      fdRedirMap := cl.fdRedirMap.touch fd
      seekDone := 0
      readRet := -1 },
    ⟨host, path, .seekRpc ⟨cl.fdRedirMap.index fd, offset, whence⟩, .seekCb⟩) addr

def ftcClientCommGenCloseRpc (host : Host) (path : Path) (fd : Fd) :
    Except Fault (Client × Sent) :=
  let (addr, cl) := cl.lookup cfg host
  forward forwards ({ cl with fdRedirMap := cl.fdRedirMap.erase fd },
    ⟨host, path, .closeRpc ⟨cl.fdRedirMap.index fd⟩, .none⟩) addr

/-- The Boolean is the value `ftc_track_file` returns once it is not blocked any more. -/
def ftcTrackFile (path : Path) (flags : BitVec 32) (fd : Fd) (cell : Addr) :
    Except Fault (Client × Bool × Option Sent) :=
  match trackedPath cfg path flags with
  | none => .ok (cl, false, none)
  | some p =>
    let cl := { cl with fdMap := cl.fdMap.insert fd p }
    if cl.overLimit (cfg.host p) then .ok (cl, false, none)
    else (cl.ftcClientCommGenOpenRpc cfg forwards (cfg.host p) p fd cell).map
      fun r ↦ (r.1, true, some r.2)

/-- What `ftc_remote_read` and `ftc_remote_pread` do before they block; without
a request they return -1. -/
def remoteTransfer (fd : Fd) (buf : Addr) (count : ℕ) (offset : ℤ) (cell : Addr) :
    Except Fault (Client × Option Sent) :=
  match cl.fdMap fd with
  | none => .ok (cl, none)
  | some p =>
    if cl.overLimit (cfg.host p) then .ok (cl, none)
    else (cl.ftcClientCommGenReadRpc cfg forwards (cfg.host p) p fd buf count offset cell).map
      fun r ↦ (r.1, some r.2)

def ftcRemoteRead (fd : Fd) (buf : Addr) (count : ℕ) (cell : Addr) :=
  cl.remoteTransfer cfg forwards fd buf count (-1) cell

def ftcRemotePread (fd : Fd) (buf : Addr) (count : ℕ) (offset : ℤ) (cell : Addr) :=
  cl.remoteTransfer cfg forwards fd buf count offset cell

/-- `ftc_remote_lseek` looks at no timeout counter. -/
def ftcRemoteLseek (fd : Fd) (offset whence : ℤ) : Except Fault (Client × Option Sent) :=
  match cl.fdMap fd with
  | none => .ok (cl, none)
  | some p => (cl.ftcClientCommGenSeekRpc cfg forwards (cfg.host p) p fd offset whence).map
      fun r ↦ (r.1, some r.2)

def ftcRemoteClose (fd : Fd) : Except Fault (Client × Option Sent) :=
  match cl.fdMap fd with
  | none => .ok (cl, none)
  | some p =>
    if cl.overLimit (cfg.host p) then .ok (cl, none)
    else (cl.ftcClientCommGenCloseRpc cfg forwards (cfg.host p) p fd).map
      fun r ↦ (r.1, some r.2)

def ftcRemoveFd (fd : Fd) : Except Fault (Client × Option Sent) :=
  (cl.ftcRemoteClose cfg forwards fd).map
    fun r ↦ ({ r.1 with fdMap := r.1.fdMap.erase fd }, r.2)

/-- What Mercury hands to a completion callback. -/
inductive Completion
  | failed
  | undecodable (garbage : ℤ)
  | output (out : ℤ)
  deriving DecidableEq

def setDone (cell : Addr) : Client :=
  { cl with cells := Function.update cl.cells cell { cl.cells cell with done := true } }

/-- `ftc_open_cb` does not look at the result of `HG_Get_output`. -/
def ftcOpenCb (localFd : Fd) (cell : Addr) : Completion → Except Fault Client
  | .failed => .error .assertCompletion
  | .undecodable g => .ok (setDone { cl with fdRedirMap := cl.fdRedirMap.insert localFd g } cell)
  | .output out =>
    .ok (setDone { cl with fdRedirMap := cl.fdRedirMap.insert localFd out } cell)

def ftcReadCb (cell : Addr) : Completion → Except Fault Client
  | .failed => .error .assertCompletion
  | .undecodable _ => .ok (cl.setDone cell)
  | .output out => .ok { cl with cells := Function.update cl.cells cell ⟨true, out⟩ }

def ftcSeekCb (out : ℤ) : Client :=
  { cl with seekDone := (cl.seekDone + 1) % 256, readRet := out }

/-- The reply to a request has arrived and decodes. -/
def complete (out : ℤ) : Callback → Except Fault Client
  | .openCb fd cell => cl.ftcOpenCb fd cell (.output out)
  | .readCb _ cell => cl.ftcReadCb cell (.output out)
  | .seekCb => .ok (cl.ftcSeekCb out)
  | .none => .ok cl

/-- The branch of `ftc_client_block` and `ftc_read_block` for `ETIMEDOUT`. -/
def timeOut (host : Host) : Client :=
  { cl with timeoutCounters :=
      Function.update cl.timeoutCounters host (cl.timeoutCounters host + 1) }

end Client

end FTCache
