import FTCache.Handlers
import FTCache.Reference
import FTCache.RemoteCalls

/-! Failure-free calls of one client on one tracked descriptor. -/

namespace FTCache.Sessions

open Runs Posix Words Replay Client Server Reference

inductive Op
  | read (buf : Addr) (count : ℕ) (cell : Addr)
  | lseek (offset whence : ℤ)
  deriving DecidableEq

/-- The two descriptions that stand for a tracked descriptor: the server's and the kernel's. -/
inductive Side
  | remote
  | here
  deriving DecidableEq

/-- A client and the server of its file. `side` and `trace` are history variables:
where the last call has left the position, and the calls with their results. -/
structure Session where
  client : Client
  server : Server
  side : Side
  trace : List (Call × Result)

def Op.call (fd : Fd) : Op → Call
  | .read buf count _ => .read fd buf count
  | .lseek offset whence => .lseek fd offset whence

namespace Session

variable (cfg : Config) (fd : Fd) (s : Session)

/-- A forwarded read, up to the value that `ftc_read_block` returns. -/
def exchange (sent : Sent) (buf cell : Addr) (cl : Client) : Option (Client × Server × ℤ) :=
  match s.server.handle sent.request {} with
  | .pushing srv bytes =>
    let cl : Client := { cl with memory := cl.memory.store buf bytes }
    (cl.awaitTransfer sent.host cell
      (.completed (.output (ftcRpcHandlerBulkCb bytes)))).toOption.map fun r ↦ (r.1, srv, r.2)
  | _ => none

/-- The remote call of a wrapper, and the value it returns. -/
def remotePart : Op → Option (Client × Server × ℤ)
  | .read buf count cell =>
    match s.client.startCall cfg (.read fd buf count) cell with
    | some (cl, some sent) => s.exchange sent buf cell cl
    | some (cl, none) => some (cl, s.server, -1)
    | none => none
  | .lseek offset whence =>
    match s.client.startCall cfg (.lseek fd offset whence) 0 with
    | some (cl, some sent) =>
      match s.server.handle sent.request {} with
      | .responded srv out => some (cl.ftcSeekCb out, srv, (cl.ftcSeekCb out).readRet)
      | _ => none
    | some (cl, none) => some (cl, s.server, -1)
    | none => none

/-- The side a call leaves the position on; a seek that fails moves nothing. -/
def sideAfter (ret : ℤ) : Op → Side
  | .read _ _ _ => if ret < 0 then .here else .remote
  | .lseek _ _ => if ret < 0 then s.side else .remote

def step (s : Session) (op : Op) : Option Session :=
  (s.remotePart cfg fd op).map fun x ↦
    let r := x.1.finishCall cfg (op.call fd) x.2.2
    ⟨r.1, x.2.1, s.sideAfter x.2.2 op, s.trace ++ [(op.call fd, r.2)]⟩

/-- The side that answers a read: the kernel's once the host has failed too often. -/
def answers : Side :=
  if ∀ p ∈ s.client.fdMap fd, ¬s.client.overLimit (cfg.host p) then .remote else .here

def Level : Prop :=
  ((s.client.fdRedirMap fd).bind s.server.fds).map Description.pos =
    (s.client.kernel fd).map Description.pos

instance : Decidable (s.Level fd) := inferInstanceAs (Decidable (_ = _))

/-- A call that goes by the position is answered on the side where the last call
has left it, or both sides stand at the same offset. -/
def Continues : Op → Prop
  | .read _ _ _ => s.side = s.answers cfg fd ∨ s.Level fd
  | .lseek _ whence => whence = 1 → s.side = .remote ∨ s.Level fd

instance : (op : Op) → Decidable (s.Continues cfg fd op)
  | .read _ _ _ => inferInstanceAs (Decidable (s.side = s.answers cfg fd ∨ s.Level fd))
  | .lseek _ whence => inferInstanceAs (Decidable (whence = 1 → s.side = .remote ∨ s.Level fd))

end Session

/-- Client and server have the same contents open, at offsets `l` and `r`. -/
structure Paired (cfg : Config) (fd a : Fd) (path q : Path) (b : Bytes) (cl : Client)
    (srv : Server) (l r : ℕ) : Prop where
  tracked : cl.fdMap fd = some path
  redir : cl.fdRedirMap fd = some a
  file : cfg.files path = some b
  here : cl.kernel fd = some ⟨path, l⟩
  copy : srv.files q = some b
  there : srv.fds a = some ⟨q, r⟩

def Side.pick (l r : ℕ) : Side → ℕ
  | .remote => r
  | .here => l

/-- The session has given the results of one description, which stands where the
last call has left the position. -/
def Follows (cfg : Config) (fd a : Fd) (path q : Path) (b : Bytes) (t₀ : Table Path)
    (s : Session) : Prop :=
  ∃ l r, Paired cfg fd a path q b s.client s.server l r ∧
    after (posix cfg) t₀ s.trace fd = some ⟨path, s.side.pick l r⟩ ∧
    Agrees (posix cfg) t₀ s.trace

variable {cfg : Config} {fd a : Fd} {path q : Path} {b : Bytes} {t₀ : Table Path}
variable {cl cl' : Client} {srv : Server} {l r : ℕ} {s s' : Session}

theorem Paired.congr (h : Paired cfg fd a path q b cl srv l r) (hm : cl'.fdMap = cl.fdMap)
    (hr : cl'.fdRedirMap = cl.fdRedirMap) (hk : cl'.kernel = cl.kernel) :
    Paired cfg fd a path q b cl' srv l r :=
  ⟨hm ▸ h.tracked, hr ▸ h.redir, h.file, hk ▸ h.here, h.copy, h.there⟩

theorem Paired.moved (h : Paired cfg fd a path q b cl srv l r) (r' : ℕ) :
    Paired cfg fd a path q b cl { srv with fds := srv.fds.insert a ⟨q, r'⟩ } l r' :=
  ⟨h.tracked, h.redir, h.file, h.here, h.copy, by simp⟩

theorem Paired.level_iff (h : Paired cfg fd a path q b s.client s.server l r) :
    s.Level fd ↔ r = l := by
  simp [Session.Level, h.redir, h.there, h.here]

theorem finish_here (h : Paired cfg fd a path q b cl srv l r) (buf : Addr) {count : ℕ}
    (hc : count < 2 ^ 31) {ret : ℤ} (hlow : -2 ^ 31 ≤ ret) (hneg : ret < 0) :
    (cl.finishCall cfg (.read fd buf count) ret).2 =
        ⟨(slice b l count).length, slice b l count⟩ ∧
      Paired cfg fd a path q b (cl.finishCall cfg (.read fd buf count) ret).1 srv
        (l + (slice b l count).length) r := by
  simp only [finishCall, finishRead_here h.here h.file buf hc hlow hneg, true_and]
  exact ⟨h.tracked, h.redir, h.file, by simp, h.copy, h.there⟩

section Exchange

variable {sent : Sent} {count : ℕ} (buf cell : Addr)

theorem handle_read (h : Paired cfg fd a path q b cl srv l r)
    (hreq : sent.request = .baseRpc (transferIn a fd count (-1))) (hc : count < 2 ^ 31) :
    srv.handle sent.request {} = .pushing
      { srv with fds := srv.fds.insert a ⟨q, r + (slice b r count).length⟩ }
      (slice b r count) := by
  rw [hreq]
  exact ftcRpcHandler_read ⟨rfl, rfl⟩ fd h.there h.copy hc

theorem exchange_served (h : Paired cfg fd a path q b cl s.server l r)
    (hreq : sent.request = .baseRpc (transferIn a fd count (-1))) (hc : count < 2 ^ 31) :
    ∃ cl' srv', s.exchange sent buf cell cl =
        some (cl', srv', ((slice b r count).length : ℤ)) ∧
      cl'.memory.load buf (slice b r count).length = slice b r count ∧
      Paired cfg fd a path q b cl' srv' l (r + (slice b r count).length) := by
  have hlen : (slice b r count).length < 2 ^ 31 := Nat.lt_of_le_of_lt (slice_length_le ..) hc
  simp only [Session.exchange, handle_read h hreq hc, awaitTransfer, ftcReadCb,
    ftcRpcHandlerBulkCb, Words.int32_natCast hlen, Except.map, Except.toOption, Option.map_some,
    Function.update_self]
  refine ⟨_, _, rfl, ?_, (h.moved _).congr rfl rfl rfl⟩
  exact Memory.load_store ..

end Exchange

theorem Follows.concat {k : Call} {x : Result} {side : Side} {t : Table Path}
    (hp : Paired cfg fd a path q b cl srv l r)
    (ha : Agrees (posix cfg) t₀ s.trace)
    (hk : posix cfg (after (posix cfg) t₀ s.trace) k = (t, x))
    (ht : t fd = some ⟨path, side.pick l r⟩) :
    Follows cfg fd a path q b t₀ ⟨cl, srv, side, s.trace ++ [(k, x)]⟩ := by
  refine ⟨l, r, hp, ?_, ?_⟩
  · rw [after_concat, hk]
    exact ht
  · exact (agrees_concat _ _ _).mpr ⟨ha, by rw [hk]⟩

theorem Follows.read_here (hp : Paired cfg fd a path q b cl srv l r)
    (ha : Agrees (posix cfg) t₀ s.trace) (ht : after (posix cfg) t₀ s.trace fd = some ⟨path, l⟩)
    {buf : Addr} {count : ℕ} (hc : count < 2 ^ 31) {ret : ℤ} (hlow : -2 ^ 31 ≤ ret)
    (hneg : ret < 0) :
    Follows cfg fd a path q b t₀ ⟨(cl.finishCall cfg (.read fd buf count) ret).1, srv, .here,
      s.trace ++ [(.read fd buf count, (cl.finishCall cfg (.read fd buf count) ret).2)]⟩ := by
  obtain ⟨hres, hp'⟩ := finish_here hp buf hc hlow hneg
  rw [hres]
  exact .concat hp' ha (posix_read ht hp.file buf count) (by simp [Side.pick])

theorem step_shape {op : Op} (h : s.step cfg fd op = some s') :
    ∃ cl srv ret, s.remotePart cfg fd op = some (cl, srv, ret) ∧
      s' = ⟨(cl.finishCall cfg (op.call fd) ret).1, srv, s.sideAfter ret op,
        s.trace ++ [(op.call fd, (cl.finishCall cfg (op.call fd) ret).2)]⟩ := by
  obtain ⟨⟨cl, srv, ret⟩, hpart, rfl⟩ := Option.map_eq_some_iff.mp h
  exact ⟨cl, srv, ret, hpart, rfl⟩

/-- A read of a tracked descriptor is sent to its server unless that has been given up. -/
theorem read_started (h : Paired cfg fd a path q b cl srv l r) {buf : Addr} {count : ℕ}
    {cell : Addr} {sent : Option Sent}
    (hs : cl.startCall cfg (.read fd buf count) cell = some (cl', sent)) :
    (cl.overLimit (cfg.host path) ∧ sent = none ∧ cl' = cl) ∨
      ¬cl.overLimit (cfg.host path) ∧ Paired cfg fd a path q b cl' srv l r ∧
        ∃ x, sent = some x ∧ x.request = .baseRpc (transferIn a fd count (-1)) := by
  cases startCall_started hs with
  | transferLocal k fd' buf' count' offset hk hover =>
    obtain ⟨rfl, -⟩ : fd = fd' ∧ buf = buf' ∧ count = count' ∧ -1 = offset := by
      simpa [Call.transfer] using hk
    exact .inl ⟨hover path h.tracked, rfl, rfl⟩
  | transferSent k p fd' buf' count' offset cache hk hpath hover =>
    obtain ⟨rfl, rfl, rfl, rfl⟩ : fd = fd' ∧ buf = buf' ∧ count = count' ∧ -1 = offset := by
      simpa [Call.transfer] using hk
    obtain rfl : path = p := Option.some.inj (h.tracked.symm.trans hpath)
    refine .inr ⟨hover, h.congr rfl (PMap.touch_of_some h.redir) rfl, _, rfl, ?_⟩
    rw [PMap.index_of_some h.redir]

theorem read_follows {buf : Addr} {count : ℕ} {cell : Addr}
    (h : Follows cfg fd a path q b t₀ s) (hc : count < 2 ^ 31)
    (hside : s.Continues cfg fd (.read buf count cell))
    (hs : s.step cfg fd (.read buf count cell) = some s') : Follows cfg fd a path q b t₀ s' := by
  obtain ⟨l, r, hp, ht, ha⟩ := h
  obtain ⟨cl, srv, ret, hpart, rfl⟩ := step_shape hs
  -- the position is where the answering side stands
  have hpos {side : Side} (hans : s.answers cfg fd = side) :
      after (posix cfg) t₀ s.trace fd = some ⟨path, side.pick l r⟩ := by
    rw [ht]
    rcases hside with he | hlevel
    · rw [he, hans]
    · rw [hp.level_iff.mp hlevel]
      cases s.side <;> cases side <;> rfl
  have hanswers : s.answers cfg fd =
      if ¬s.client.overLimit (cfg.host path) then .remote else .here := by
    simp [Session.answers, hp.tracked]
  simp only [Session.remotePart] at hpart
  split at hpart
  case h_1 cl₁ sent hstart =>
    obtain ⟨-, hsent, -⟩ | ⟨hover, hp₁, x, hx, hreq⟩ := read_started hp hstart
    · cases hsent
    obtain rfl : sent = x := Option.some.inj hx
    obtain ⟨cl', srv', he, hmem, hp'⟩ := exchange_served buf cell hp₁ hreq hc
    rw [he] at hpart
    cases hpart
    have hlen : (slice b r count).length < 2 ^ 31 := Nat.lt_of_le_of_lt (slice_length_le ..) hc
    have hans := hpos (hanswers.trans (if_pos hover))
    rw [Op.call, finishCall, finishRead_remote fd count hlen hmem, Session.sideAfter,
      if_neg (by omega)]
    exact .concat hp' ha (posix_read hans hp.file buf count) (by simp [Side.pick])
  case h_2 cl₁ hstart =>
    cases hpart
    obtain ⟨hover, -, rfl⟩ | ⟨-, -, x, hx, -⟩ := read_started hp hstart
    · exact .read_here hp ha (hpos (hanswers.trans (if_neg fun hg ↦ hg hover))) hc (by omega)
        (by omega)
    · cases hx
  case h_3 => cases hpart

theorem seek_started (h : Paired cfg fd a path q b cl srv l r) {offset whence : ℤ} {cell : Addr}
    {sent : Option Sent} (hoff : -2 ^ 31 ≤ offset ∧ offset < 2 ^ 31)
    (hs : cl.startCall cfg (.lseek fd offset whence) cell = some (cl', sent)) :
    Paired cfg fd a path q b cl' srv l r ∧
      ∃ x, sent = some x ∧ x.request = .seekRpc ⟨a, offset, whence⟩ := by
  cases startCall_started hs with
  | transferLocal _ _ _ _ _ hk => cases hk
  | transferSent _ _ _ _ _ _ _ hk => cases hk
  | lseekLocal _ _ _ hnone => simp [h.tracked] at hnone
  | lseekSent p _ _ _ cache hpath =>
    refine ⟨h.congr rfl (PMap.touch_of_some h.redir) rfl, _, rfl, ?_⟩
    rw [PMap.index_of_some h.redir, Words.int32_of_range hoff.1 hoff.2]

theorem handle_seek (h : Paired cfg fd a path q b cl srv l r) (offset whence : ℤ) :
    ∃ srv', srv.handle (.seekRpc ⟨a, offset, whence⟩) {} = .responded srv'
        (Words.int32 (offsetReturned (seekTarget b.length r offset whence))) ∧
      Paired cfg fd a path q b cl srv' l ((seekTarget b.length r offset whence).getD r) := by
  obtain ⟨hout, hmoved⟩ := lseek_of_open h.there h.copy offset whence
  refine ⟨{ srv with fds := (lseek srv.files srv.fds a offset whence).2 }, ?_,
    ⟨h.tracked, h.redir, h.file, h.here, h.copy, hmoved⟩⟩
  simp only [handle, ftcSeekRpcHandler, hout]

theorem lseek_follows {offset whence : ℤ} (h : Follows cfg fd a path q b t₀ s)
    (hin : InRange cfg (after (posix cfg) t₀ s.trace) (.lseek fd offset whence))
    (hside : s.Continues cfg fd (.lseek offset whence))
    (hs : s.step cfg fd (.lseek offset whence) = some s') : Follows cfg fd a path q b t₀ s' := by
  obtain ⟨l, r, hp, ht, ha⟩ := h
  obtain ⟨-, hoff, hlt⟩ := hin
  obtain ⟨cl, srv, ret, hpart, rfl⟩ := step_shape hs
  simp only [Session.remotePart] at hpart
  split at hpart
  case h_1 cl₁ sent hstart =>
    obtain ⟨hp₁, x, hx, hreq⟩ := seek_started hp hoff hstart
    obtain rfl : sent = x := Option.some.inj hx
    obtain ⟨srv', hserve, hp'⟩ := handle_seek hp₁ offset whence
    obtain ⟨t', hk, ht'⟩ := posix_lseek ht hp.file offset whence
    -- the server seeks to where the reference does
    have htarget : seekTarget b.length (s.side.pick l r) offset whence =
        seekTarget b.length r offset whence := by
      refine seekTarget_congr fun hw ↦ ?_
      rcases hside hw with he | hlevel
      · rw [he]
        rfl
      · rw [hp.level_iff.mp hlevel]
        cases s.side <;> rfl
    rw [htarget] at hk ht'
    have hge := offsetReturned_ge (seekTarget b.length r offset whence)
    have hret : Words.int32 (offsetReturned (seekTarget b.length r offset whence)) =
        offsetReturned (seekTarget b.length r offset whence) := by
      have hout : offsetReturned
          (lseek cfg.files (after (posix cfg) t₀ s.trace) fd offset whence).1 =
          offsetReturned (seekTarget b.length r offset whence) := congrArg (fun x ↦ x.2.ret) hk
      exact Words.int32_of_range (by omega) (hout ▸ hlt)
    simp only [hreq, hserve, hret] at hpart
    cases hpart
    have hseek : Paired cfg fd a path q b
        (cl₁.ftcSeekCb (offsetReturned (seekTarget b.length r offset whence))) srv l
        ((seekTarget b.length r offset whence).getD r) := hp'.congr rfl rfl rfl
    rw [Op.call, finishCall, finishLseek_tracked hseek.tracked]
    refine .concat hseek ha hk (ht'.trans ?_)
    cases hx : seekTarget b.length r offset whence with
    | none => simp [Session.sideAfter, ftcSeekCb]
    | some n => simp [Session.sideAfter, ftcSeekCb, Side.pick, show ¬(n : ℤ) < 0 by omega]
  case h_2 cl₁ hstart =>
    obtain ⟨-, x, hx, -⟩ := seek_started hp hoff hstart
    cases hx
  case h_3 => cases hpart

/-- What an open leaves behind when its server has opened the file as well. -/
theorem opened_paired {pathname p : Path} {flags : BitVec 32} {cell : Addr} {sent : Sent}
    {env : Env} {srv' : Server} (hs : cl.startCall cfg (.openFile pathname flags fd) cell =
      some (cl', some sent)) (hp : cfg.canonical pathname = some p)
    (hserve : srv.handle sent.request env = .responded srv' a) (ha : a ≠ -1)
    (hb : cfg.files p = some b) (hcopy : srv.files (srv.redirPath p) = some b) {cl₂ : Client}
    (hc : cl'.complete a sent.callback = .ok cl₂) :
    Paired cfg fd a p (srv.redirPath p) b cl₂ srv' 0 0 := by
  cases startCall_started hs with
  | transferSent _ _ _ _ _ _ _ hk => cases hk
  | openSent _ p' _ _ cache hp' =>
    obtain rfl : p = p' := Option.some.inj (hp.symm.trans hp')
    cases hc
    simp only [handle, ftcOpenRpcHandler, sysOpen] at hserve
    split at hserve
    case h_1 =>
      cases hserve
      exact absurd rfl ha
    case h_2 fd' he =>
      split at hserve
      case isTrue =>
        cases hserve
        exact ⟨by simp [setDone], by simp [setDone], hb, by simp [setDone], hcopy, by simp⟩
      case isFalse =>
        cases hserve
        exact absurd rfl ha

theorem Follows.start {s₀ : Session} (hp : Paired cfg fd a path q b s₀.client s₀.server 0 0)
    (htrace : s₀.trace = []) : Follows cfg fd a path q b s₀.client.kernel s₀ := by
  refine ⟨0, 0, hp, ?_, by simp [htrace, Agrees]⟩
  rw [htrace]
  simp only [after, hp.here]
  cases s₀.side <;> rfl

/-- A client and its server just after the open of a file of four bytes. -/
def openSession : Session where
  client := { sampleClient with
    fdMap := sampleClient.fdMap.insert 3 samplePath
    fdRedirMap := sampleClient.fdRedirMap.insert 3 7
    kernel := sampleClient.kernel.insert 3 ⟨samplePath, 0⟩ }
  server :=
    let srv := Server.start sampleConfig.files fun _ ↦ none
    { srv with fds := srv.fds.insert 7 ⟨samplePath, 0⟩ }
  side := .remote
  trace := []

theorem openSession_paired : Paired sampleConfig 3 7 samplePath samplePath [1, 2, 3, 4]
    openSession.client openSession.server 0 0 := by
  refine ⟨?_, ?_, ?_, ?_, ?_, ?_⟩ <;> decide +kernel

end FTCache.Sessions
