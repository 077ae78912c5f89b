import FTCache.Handlers
import FTCache.RemoteCalls

namespace FTCache

/-- The server once its descriptor `a` on `q` stands at `n`. -/
def Server.advanced (srv : Server) (a : Fd) (q : Path) (n : ℕ) : Server :=
  { srv with fds := srv.fds.insert a ⟨q, n⟩ }

namespace RemoteReads

open Posix Words Client Server

/-- What the client that waits sees of a handled request; a server that has stopped lets
it time out. -/
def ending : Handled → Ending
  | .aborted _ => .timedOut
  | .responded _ out => .completed (.output out)
  | .pushing _ bytes => .completed (.output (ftcRpcHandlerBulkCb bytes))
  | .silent _ => .timedOut

/-- The client's memory once the transfer of a handled request has completed. -/
def stored (m : Memory UInt8) (buf : Addr) (r : Handled) : Memory UInt8 :=
  match r.pushed with
  | none => m
  | some bytes => m.store buf bytes

/-- `ftc_remote_read` (with offset -1) and `ftc_remote_pread` with the server that
handles their request. -/
def remoteRead (cfg : Config) (env : Env) (cl : Client) (srv : Server) (fd : Fd) (buf : Addr)
    (count : ℕ) (offset : ℤ) (cell : Addr) : Except Fault (Client × Server × ℤ) :=
  match cl.remoteTransfer cfg true fd buf count offset cell with
  | .error e => .error e
  | .ok (cl, none) => .ok (cl, srv, -1)
  | .ok (cl, some sent) =>
    let r := srv.handle sent.request env
    (awaitTransfer { cl with memory := stored cl.memory buf r } sent.host cell (ending r)).map
      fun x ↦ (x.1, r.after srv, x.2)

/-- The value a blocked transfer returns for a handled request. -/
def value : Handled → ℤ
  | .aborted _ => -1
  | .responded _ out => out
  | .pushing _ bytes => ftcRpcHandlerBulkCb bytes
  | .silent _ => -1

/-- Where the server reads for an offset, in a descriptor that stands at `pos`. -/
def readsAt (pos : ℕ) (offset : ℤ) : Option ℕ :=
  if offset = -1 then some pos else if offset < 0 then none else some offset.toNat

/-- Client and server have a file open as `fd` and `a`, the server's at `pos`, and the
host is not given up. -/
structure Reads (cfg : Config) (cl : Client) (srv : Server) (fd a : Fd) (path q : Path) (b : Bytes)
    (pos : ℕ) : Prop where
  tracked : cl.fdMap fd = some path
  redir : cl.fdRedirMap fd = some a
  there : srv.fds a = some ⟨q, pos⟩
  copy : srv.files q = some b
  below : ¬cl.overLimit (cfg.host path)

variable {cfg : Config} {env : Env} {cl cl' : Client} {srv srv' : Server} {fd a : Fd}
variable {path q : Path} {b : Bytes} {pos : ℕ} {buf cell : Addr} {count : ℕ} {offset ret : ℤ}

/-- What a remote read leaves of the client, whatever its request comes to. -/
structure Left (cl : Client) (buf : Addr) (r : Handled) (cl' : Client) : Prop where
  fdMap : cl'.fdMap = cl.fdMap
  fdRedirMap : cl'.fdRedirMap = cl.fdRedirMap
  kernel : cl'.kernel = cl.kernel
  memory : cl'.memory = stored cl.memory buf r
  counters : (∀ e, r ≠ .aborted e) → cl'.timeoutCounters = cl.timeoutCounters

theorem transfer_requested (hr : Reads cfg cl srv fd a path q b pos) {sent : Option Sent}
    (h : cl.remoteTransfer cfg true fd buf count offset cell = .ok (cl', sent)) :
    ∃ x, sent = some x ∧ x.request = .baseRpc (transferIn a fd count offset) := by
  have hs : Started cfg cl cell (.pread fd buf count offset) cl' sent :=
    remoteTransfer_started rfl (congrArg Except.toOption h)
  cases hs with
  | transferLocal _ _ _ _ _ hk hl =>
    cases hk
    exact absurd (hl path hr.tracked) hr.below
  | transferSent _ p _ _ _ _ cache hk hp ho =>
    cases hk
    exact ⟨_, rfl, by rw [PMap.index_of_some hr.redir]⟩

theorem remoteRead_sent (hr : Reads cfg cl srv fd a path q b pos)
    (h : remoteRead cfg env cl srv fd buf count offset cell = .ok (cl', srv', ret)) :
    let r := srv.ftcRpcHandler (transferIn a fd count offset) env
    srv' = r.after srv ∧ ret = value r ∧ Left cl buf r cl' := by
  unfold remoteRead at h
  split at h
  · cases h
  case h_2 cl₁ heq =>
    have hs : Started cfg cl cell (.pread fd buf count offset) cl₁ none :=
      remoteTransfer_started rfl (congrArg Except.toOption heq)
    cases hs with
    | transferLocal _ _ _ _ _ hk hl =>
      cases hk
      exact absurd (hl path hr.tracked) hr.below
  case h_3 cl₁ sent heq =>
    have hs : Started cfg cl cell (.pread fd buf count offset) cl₁ (some sent) :=
      remoteTransfer_started rfl (congrArg Except.toOption heq)
    cases hs with
    | transferSent _ p _ _ _ _ cache hk hp ho =>
      cases hk
      have hindex := PMap.index_of_some hr.redir
      have htouch := PMap.touch_of_some hr.redir
      rw [hindex, htouch] at h
      simp only [handle] at h
      cases he : srv.ftcRpcHandler (transferIn a fd count offset) env with
      | aborted e =>
        rw [he] at h
        cases h
        exact ⟨rfl, rfl, rfl, rfl, rfl, rfl, fun hn ↦ absurd rfl (hn e)⟩
      | responded s out =>
        rw [he] at h
        cases h
        exact ⟨rfl, by simp [value], rfl, rfl, rfl, rfl, fun _ ↦ rfl⟩
      | pushing s bytes =>
        rw [he] at h
        cases h
        exact ⟨rfl, by simp [value], rfl, rfl, rfl, rfl, fun _ ↦ rfl⟩
      | silent s =>
        obtain ⟨inp, hclose⟩ := handle_silent (r := .baseRpc (transferIn a fd count offset)) he
        cases hclose

/-- The handler on the request of a client, for any count: the allocation fails, or the
offset is refused, or the bytes found there are pushed. -/
theorem handler_transfer (hr : Reads cfg cl srv fd a path q b pos) (henv : env.firstRead = true) :
    srv.ftcRpcHandler (transferIn a fd count offset) env =
      if env.calloc = true ∧ 0 ≤ int32 count then
        match readsAt pos offset with
        | none => .responded srv (-1)
        | some n => .pushing
            (if offset = -1
              then srv.advanced a q (pos + (slice b pos (size64 (int32 count))).length)
              else srv)
            (slice b n (size64 (int32 count)))
      else .aborted .buffer := by
  unfold ftcRpcHandler
  split
  case isTrue hg =>
    have hfree : env.calloc = true ∧ 0 ≤ int32 count := ⟨hg.1, size64_int32_lt.mp hg.2⟩
    have hfit := size64_int32_le hfree.2
    rw [if_pos hfree]
    split
    case isTrue hoff =>
      obtain rfl : offset = -1 := hoff
      simp only [transferIn, ↓reduceIte, readsAt, readSequential, sysRead, henv,
        read_of_open hr.there hr.copy]
      exact startTransfer_some hfit (slice_length_le ..) hg.2
    case isFalse hoff =>
      have hoff : offset ≠ -1 := hoff
      by_cases hneg : offset < 0
      · simp [transferIn, readsAt, hoff, hneg, sysPread, henv, pread]
      · simp only [transferIn, readsAt, hoff, hneg, ↓reduceIte, sysPread, henv,
          pread_of_open hr.there hr.copy _ (Int.not_lt.mp hneg)]
        exact startTransfer_some hfit (slice_length_le ..) hg.2
  case isFalse hg => rw [if_neg fun h ↦ hg ⟨h.1, size64_int32_lt.mpr h.2⟩]

end RemoteReads

end FTCache
