import FTCache.Library.Runs
import FTCache.RemoteReads

namespace FTCache.Streams

open Runs Posix Words Client Server RemoteReads

/-- The wrapped calls on one tracked descriptor; a transfer has its frame at `cell`. -/
inductive Op
  | read (buf : Addr) (count : ℕ) (cell : Addr)
  | pread (buf : Addr) (count : ℕ) (offset : ℤ) (cell : Addr)
  | lseek (offset whence : ℤ)
  | lseek64 (offset whence : ℤ)
  deriving DecidableEq

def Op.call (fd : Fd) : Op → Call
  | .read buf count _ => .read fd buf count
  | .pread buf count offset _ => .pread fd buf count offset
  | .lseek offset whence => .lseek fd offset whence
  | .lseek64 offset whence => .lseek fd offset whence

/-- A client, the server of its file, and the calls made so far with their results. -/
structure Stream where
  client : Client
  server : Server
  trace : List (Call × Result)

/-- `ftc_remote_lseek` with the server that handles its request; without an answer it
waits for ever. -/
def remoteSeek (cfg : Config) (cl : Client) (srv : Server) (fd offset whence : ℤ) :
    Option (Client × Server × ℤ) :=
  match cl.ftcRemoteLseek cfg true fd (int32 offset) whence with
  | .error _ => none
  | .ok (cl, none) => some (cl, srv, -1)
  | .ok (cl, some sent) =>
    match srv.handle sent.request {} with
    | .responded srv out => some (cl.ftcSeekCb out, srv, (cl.ftcSeekCb out).readRet)
    | _ => none

namespace Stream

variable (cfg : Config) (fd : Fd) (s : Stream)

def remotePart : Op → Option (Client × Server × ℤ)
  | .read buf count cell => (remoteRead cfg {} s.client s.server fd buf count (-1) cell).toOption
  | .pread buf count offset cell =>
    (remoteRead cfg {} s.client s.server fd buf count offset cell).toOption
  -- the wrappers of lseek and lseek64 make the same remote call
  | .lseek offset whence => remoteSeek cfg s.client s.server fd offset whence
  | .lseek64 offset whence => remoteSeek cfg s.client s.server fd offset whence

/-- One wrapped call, as long as no process stops. -/
def step (s : Stream) (op : Op) : Option Stream :=
  (s.remotePart cfg fd op).bind fun x ↦
    if x.2.1.aborted then none
    else
      let r := x.1.finishCall cfg (op.call fd) x.2.2
      some ⟨r.1, x.2.1, s.trace ++ [(op.call fd, r.2)]⟩

/-- The position that the server's descriptor for `fd` has, from which later reads go on. -/
def position : Option ℕ :=
  ((s.client.fdRedirMap fd).bind s.server.fds).map Description.pos

def lastReturned : Option ℤ := s.trace.getLast?.map fun x ↦ x.2.ret

end Stream

/-- The stream stands at `pos`, and its server is running. -/
structure At (cfg : Config) (fd a : Fd) (path q : Path) (b : Bytes) (s : Stream) (pos : ℕ) :
    Prop where
  reads : Reads cfg s.client s.server fd a path q b pos
  running : s.server.aborted = false

variable {cfg : Config} {fd a : Fd} {path q : Path} {b : Bytes} {s s' : Stream} {pos : ℕ}

theorem At.position_eq (h : At cfg fd a path q b s pos) : s.position fd = some pos := by
  simp [Stream.position, h.reads.redir, h.reads.there]

theorem step_shape {op : Op} (h : s.step cfg fd op = some s') :
    ∃ cl srv ret, s.remotePart cfg fd op = some (cl, srv, ret) ∧ srv.aborted = false ∧
      s' = ⟨(cl.finishCall cfg (op.call fd) ret).1, srv,
        s.trace ++ [(op.call fd, (cl.finishCall cfg (op.call fd) ret).2)]⟩ := by
  obtain ⟨⟨cl, srv, ret⟩, hpart, h⟩ := Option.bind_eq_some_iff.mp h
  split at h
  · cases h
  case isFalse ha =>
    cases h
    exact ⟨cl, srv, ret, hpart, by simpa using ha, rfl⟩

theorem lastReturned_concat (cl : Client) (srv : Server) (t : List (Call × Result)) (k : Call)
    (r : Result) : (Stream.mk cl srv (t ++ [(k, r)])).lastReturned = some r.ret := by
  simp [Stream.lastReturned]

theorem At.finish {cl : Client} {srv : Server} (hr : Reads cfg cl srv fd a path q b pos)
    (hrun : srv.aborted = false) (k : Call) (ret : ℤ) (t : List (Call × Result)) :
    At cfg fd a path q b ⟨(cl.finishCall cfg k ret).1, srv, t⟩ pos := by
  obtain ⟨kernel, memory, he, -⟩ := cl.finishCall_shape cfg k ret
  refine ⟨?_, hrun⟩
  rw [he]
  exact ⟨hr.tracked, hr.redir, hr.there, hr.copy, hr.below⟩

section Transfer

variable {cl cl' : Client} {srv srv' : Server} {buf cell : Addr} {count : ℕ} {offset ret : ℤ}

/-- A remote transfer that has not stopped the server: it reads where the offset says,
and the position moves if that is the position. -/
theorem transfer_effect (hr : Reads cfg cl srv fd a path q b pos)
    (h : remoteRead cfg {} cl srv fd buf count offset cell = .ok (cl', srv', ret))
    (hrun : srv'.aborted = false) :
    Reads cfg cl' srv' fd a path q b
        (if offset = -1 then pos + (slice b pos (size64 (int32 count))).length else pos) ∧
      ret = match readsAt pos offset with
        | none => -1
        | some n => ((slice b n (size64 (int32 count))).length : ℤ) := by
  obtain ⟨hsrv, hret, hleft⟩ := remoteRead_sent hr h
  have hnot (e : Assertion) : srv.ftcRpcHandler (transferIn a fd count offset) {} ≠ .aborted e := by
    intro he
    rw [hsrv, he] at hrun
    cases hrun
  have hbelow : ¬cl'.overLimit (cfg.host path) := by
    unfold overLimit
    rw [hleft.counters hnot]
    exact hr.below
  have hfield {srv₁ : Server} {n : ℕ} (hthere : srv₁.fds a = some ⟨q, n⟩)
      (hcopy : srv₁.files = srv.files) : Reads cfg cl' srv₁ fd a path q b n :=
    ⟨hleft.fdMap ▸ hr.tracked, hleft.fdRedirMap ▸ hr.redir, hthere, hcopy ▸ hr.copy, hbelow⟩
  have hhandle : srv.ftcRpcHandler (transferIn a fd count offset) {} = _ := handler_transfer hr rfl
  by_cases hfree : ({} : Env).calloc = true ∧ 0 ≤ int32 count
  · rw [if_pos hfree] at hhandle
    cases hat : readsAt pos offset with
    | none =>
      have hoff : offset ≠ -1 := by
        intro he
        simp [readsAt, he] at hat
      have hrefused : srv.ftcRpcHandler (transferIn a fd count offset) {} =
          .responded srv (-1) := by rw [hhandle, hat]
      rw [if_neg hoff, hsrv, hret, hrefused]
      exact ⟨hfield hr.there rfl, rfl⟩
    | some n =>
      rw [hat] at hhandle
      have hupper := int32_upper count
      have hsize := size64_of_nonneg hfree.2 (by omega)
      have hlen := slice_length_le b n (size64 (int32 count))
      rw [hsrv, hret, hhandle]
      refine ⟨?_, int32_natCast (by omega)⟩
      by_cases hoff : offset = -1
      · rw [if_pos hoff, if_pos hoff]
        exact hfield (by simp [Handled.after, advanced]) rfl
      · rw [if_neg hoff, if_neg hoff]
        exact hfield hr.there rfl
  · rw [if_neg hfree] at hhandle
    exact absurd hhandle (hnot _)

end Transfer

theorem read_at {buf cell : Addr} {count : ℕ} (h : At cfg fd a path q b s pos)
    (hs : s.step cfg fd (.read buf count cell) = some s') :
    At cfg fd a path q b s' (pos + (slice b pos (size64 (int32 count))).length) := by
  obtain ⟨cl, srv, ret, hpart, hrun, rfl⟩ := step_shape hs
  obtain ⟨hr, -⟩ := transfer_effect h.reads (toOption_eq_some hpart) hrun
  exact .finish hr hrun _ ret _

theorem pread_at {buf cell : Addr} {count : ℕ} {offset : ℤ} (h : At cfg fd a path q b s pos)
    (hs : s.step cfg fd (.pread buf count offset cell) = some s') :
    At cfg fd a path q b s'
        (if offset = -1 then pos + (slice b pos (size64 (int32 count))).length else pos) ∧
      s'.lastReturned = some (match readsAt pos offset with
        | none => -1
        | some n => ((slice b n (size64 (int32 count))).length : ℤ)) := by
  obtain ⟨cl, srv, ret, hpart, hrun, rfl⟩ := step_shape hs
  obtain ⟨hr, hret⟩ := transfer_effect h.reads (toOption_eq_some hpart) hrun
  refine ⟨.finish hr hrun _ ret _, ?_⟩
  rw [lastReturned_concat, Option.some_inj]
  simp only [Op.call, finishCall, finishPread]
  cases hat : readsAt pos offset with
  | none =>
    -- the local fallback is refused in turn
    obtain rfl : ret = -1 := by rw [hret, hat]
    have hneg : offset < 0 := by
      unfold readsAt at hat
      grind
    simp [transferResult, realPread, pread, hneg]
  | some n =>
    have hcounted : ret = ((slice b n (size64 (int32 count))).length : ℤ) := by rw [hret, hat]
    rw [if_neg (by omega), hcounted]
    rfl

/-- A remote seek goes to the narrowed offset, and its result is narrowed in turn. -/
theorem seek_effect {cl cl' : Client} {srv srv' : Server} {offset whence ret : ℤ}
    (hr : Reads cfg cl srv fd a path q b pos)
    (h : remoteSeek cfg cl srv fd offset whence = some (cl', srv', ret)) :
    Reads cfg cl' srv' fd a path q b
        ((seekTarget b.length pos (int32 offset) whence).getD pos) ∧
      srv'.aborted = srv.aborted ∧
      ret = int32 (offsetReturned (seekTarget b.length pos (int32 offset) whence)) := by
  obtain ⟨hout, hmoved⟩ := lseek_of_open hr.there hr.copy (int32 offset) whence
  unfold remoteSeek at h
  simp only [ftcRemoteLseek, hr.tracked] at h
  cases hg : cl.ftcClientCommGenSeekRpc cfg true (cfg.host path) path fd (int32 offset) whence with
  | error e =>
    rw [hg] at h
    cases h
  | ok x =>
    obtain rfl := forward_ok hg
    rw [hg] at h
    simp only [Except.map, handle, ftcSeekRpcHandler, PMap.index_of_some hr.redir,
      PMap.touch_of_some hr.redir, hout] at h
    cases h
    exact ⟨⟨hr.tracked, hr.redir, hmoved, hr.copy, hr.below⟩, rfl, rfl⟩

theorem seek_at {op : Op} {offset whence : ℤ}
    (hop : op = .lseek offset whence ∨ op = .lseek64 offset whence)
    (h : At cfg fd a path q b s pos) (hs : s.step cfg fd op = some s') :
    At cfg fd a path q b s' ((seekTarget b.length pos (int32 offset) whence).getD pos) ∧
      s'.lastReturned =
        some (int32 (offsetReturned (seekTarget b.length pos (int32 offset) whence))) := by
  obtain ⟨cl, srv, ret, hpart, hrun, rfl⟩ := step_shape hs
  have hseek : remoteSeek cfg s.client s.server fd offset whence = some (cl, srv, ret) := by
    rcases hop with rfl | rfl
    · exact hpart
    · exact hpart
  have hcall : op.call fd = .lseek fd offset whence := by
    rcases hop with rfl | rfl
    · rfl
    · rfl
  obtain ⟨hr, -, hret⟩ := seek_effect h.reads hseek
  refine ⟨.finish hr hrun _ ret _, ?_⟩
  rw [lastReturned_concat, hcall, hret, finishCall, finishLseek_tracked hr.tracked]

theorem step_at {op : Op} (h : At cfg fd a path q b s pos) (hs : s.step cfg fd op = some s') :
    ∃ n, At cfg fd a path q b s' n := by
  cases op with
  | read buf count cell => exact ⟨_, read_at h hs⟩
  | pread buf count offset cell => exact ⟨_, (pread_at h hs).1⟩
  | lseek offset whence => exact ⟨_, (seek_at (.inl rfl) h hs).1⟩
  | lseek64 offset whence => exact ⟨_, (seek_at (.inr rfl) h hs).1⟩

end FTCache.Streams
