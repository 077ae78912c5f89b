import FTCache.Library.Posix
import FTCache.Messages

namespace FTCache

open Posix Words

inductive Assertion
  | buffer
  | bulkTransfer
  | closeResult
  deriving DecidableEq

/-- Where the data mover stands with the front of its private list. -/
inductive Phase
  | idle
  | named (filename : Path)
  | copying (filename : Path)
  | copied (filename : Path)
  deriving DecidableEq

/-- The data mover thread. `copies` is a history variable: the copies that completed. -/
structure Mover where
  localList : List Path := []
  phase : Phase := .idle
  copies : List (Path × Path) := []
  deriving DecidableEq

/-- A server process: the files its node sees, its descriptors and its tables. -/
structure Server where
  files : Path → Option Bytes
  fds : Table Path
  fdToPath : PMap Fd Path
  pathCacheMap : PMap Path Path
  dataQueue : List Path
  mover : Mover
  aborted : Bool

/-- What allocator and kernel answer while one request is handled. A call that
POSIX forbids fails whatever is offered here. -/
structure Env where
  calloc : Bool := true
  firstRead : Bool := true
  secondRead : Bool := true
  opened : Option Fd := none
  closed : Bool := true

inductive Handled
  | aborted (a : Assertion)
  | responded (srv : Server) (out : ℤ)
  | pushing (srv : Server) (bytes : Bytes)
  | silent (srv : Server)

def Handled.pushed : Handled → Option Bytes
  | .pushing _ bytes => some bytes
  | _ => none

theorem Handled.pushed_eq_some {r : Handled} {bytes : Bytes} :
    r.pushed = some bytes ↔ ∃ srv, r = .pushing srv bytes := by
  cases r <;> simp [Handled.pushed]

namespace Server

variable (srv : Server)

def sysRead (ok : Bool) (fd : Fd) (n : ℕ) : Option Bytes × Table Path :=
  if ok then read srv.files srv.fds fd n else (none, srv.fds)

def sysPread (ok : Bool) (fd : Fd) (n : ℕ) (offset : ℤ) : Option Bytes :=
  if ok then pread srv.files srv.fds fd n offset else none

def sysOpen (opened : Option Fd) (path : Path) : Fd × Table Path :=
  match opened with
  | none => (-1, srv.fds)
  | some fd =>
    if Grants srv.files srv.fds path fd then (fd, srv.fds.insert fd ⟨path, 0⟩) else (-1, srv.fds)

/-- The end of `ftc_rpc_handler`: the byte count becomes the transfer size, and
Mercury accepts a transfer that fits both registered buffers. -/
def startTransfer (srv : Server) (inp : RpcIn) (readbytes : Option Bytes) : Handled :=
  let size := size64 (transferred readbytes)
  if size ≤ inp.bulkSize ∧ size ≤ size64 inp.inputVal then .pushing srv (readbytes.getD [])
  else .aborted .bulkTransfer

/-- The branch of `ftc_rpc_handler` for `offset == -1`. -/
def readSequential (inp : RpcIn) (env : Env) : Option Bytes × Table Path :=
  match srv.sysRead env.firstRead inp.accessfd (size64 inp.inputVal) with
  | (some bs, fds) => (some bs, fds)
  | (none, _) => srv.sysRead env.secondRead inp.localfd (size64 inp.inputVal)

def ftcRpcHandler (inp : RpcIn) (env : Env) : Handled :=
  -- no allocator grants an object larger than PTRDIFF_MAX
  if env.calloc ∧ size64 inp.inputVal < 2 ^ 63 then
    if inp.offset = -1 then
      let r := srv.readSequential inp env
      startTransfer { srv with fds := r.2 } inp r.1
    else
      match srv.sysPread env.firstRead inp.accessfd (size64 inp.inputVal) inp.offset with
      | none => .responded srv (-1)
      | some bs => startTransfer srv inp (some bs)
  else .aborted .buffer

/-- `ftc_rpc_handler_bulk_cb`: the value of `out.ret` once the push completed. -/
def ftcRpcHandlerBulkCb (bytes : Bytes) : ℤ := int32 bytes.length

def redirPath (path : Path) : Path := (srv.pathCacheMap path).getD path

def ftcOpenRpcHandler (inp : OpenIn) (env : Env) : Handled :=
  let r := srv.sysOpen env.opened (srv.redirPath inp.path)
  .responded { srv with fds := r.2, fdToPath := srv.fdToPath.insert r.1 inp.path } r.1

def ftcCloseRpcHandler (inp : CloseIn) (env : Env) : Handled :=
  if (srv.fds inp.fd).isSome ∧ env.closed then
    let path := srv.fdToPath.index inp.fd
    .silent { srv with
      fds := srv.fds.erase inp.fd
      fdToPath := (srv.fdToPath.touch inp.fd).erase inp.fd
      dataQueue := if srv.pathCacheMap path = none then srv.dataQueue ++ [path]
        else srv.dataQueue }
  else .aborted .closeResult

def ftcSeekRpcHandler (inp : SeekIn) : Handled :=
  let r := lseek srv.files srv.fds inp.fd inp.offset inp.whence
  .responded { srv with fds := r.2 } (int32 (offsetReturned r.1))

def handle (r : Request) (env : Env) : Handled :=
  match r with
  | .openRpc inp => srv.ftcOpenRpcHandler inp env
  | .baseRpc inp => srv.ftcRpcHandler inp env
  | .seekRpc inp => srv.ftcSeekRpcHandler inp
  | .closeRpc inp => srv.ftcCloseRpcHandler inp env

variable {srv}

theorem handle_closeRpc (srv : Server) (inp : CloseIn) (env : Env) :
    (∃ s, srv.handle (.closeRpc inp) env = .silent s) ∨
      srv.handle (.closeRpc inp) env = .aborted .closeResult := by
  simp only [handle, ftcCloseRpcHandler]
  split
  · exact .inl ⟨_, rfl⟩
  · exact .inr rfl

theorem startTransfer_not_silent (inp : RpcIn) (r : Option Bytes) (s : Server) :
    startTransfer srv inp r ≠ .silent s := by
  simp only [startTransfer]
  split <;> simp

theorem handle_silent {r : Request} {env : Env} {s : Server}
    (h : srv.handle r env = .silent s) : ∃ inp, r = .closeRpc inp := by
  cases r with
  | openRpc inp => cases h
  | seekRpc inp => cases h
  | closeRpc inp => exact ⟨inp, rfl⟩
  | baseRpc inp =>
    simp only [handle, ftcRpcHandler] at h
    split at h
    · split at h
      · exact absurd h (startTransfer_not_silent _ _ _)
      · split at h
        · cases h
        · exact absurd h (startTransfer_not_silent _ _ _)
    · cases h

end Server

end FTCache
