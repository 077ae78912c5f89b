import FTCache.Sessions

namespace FTCache.EntryPoints

open Runs Posix Words Replay Client Server Reference Sessions

/-- The intercepted calls that go by the position of a descriptor; a read has its
frame at `cell`. -/
inductive Entry
  | read (buf : Addr) (count : ℕ) (cell : Addr)
  | read64 (buf : Addr) (count : ℕ)
  | readv (iov : List (Addr × ℕ))
  | lseek (offset whence : ℤ)
  | lseek64 (offset whence : ℤ)
  deriving DecidableEq

/-- What each does on an unwrapped descriptor. -/
def Entry.call (fd : Fd) : Entry → Call
  | .read buf count _ => .read fd buf count
  | .read64 buf count => .read fd buf count
  | .readv iov => .read fd 0 (iov.map Prod.snd).sum
  | .lseek offset whence => .lseek fd offset whence
  | .lseek64 offset whence => .lseek fd offset whence

/-- The functions that `MAP_OR_FAIL` maps. -/
inductive Symbol
  | read
  | read64
  | readv
  | lseek
  | lseek64
  deriving DecidableEq

def Entry.symbol : Entry → Symbol
  | .read _ _ _ => .read
  | .read64 _ _ => .read64
  | .readv _ => .readv
  | .lseek _ _ => .lseek
  | .lseek64 _ _ => .lseek64

/-- The symbols that `dlsym(RTLD_NEXT, ..)` finds in glibc, which has no `read64`. -/
def glibc (f : Symbol) : Bool := f ≠ .read64

/-- A process that uses the library; `exited` says that it has ended itself. -/
structure Process where
  session : Session
  exited : Bool

section Wrappers

variable (cfg : Config) (cl : Client) (fd : Fd)

/-- The wrapper of `read64` calls the real one, tracked or not. -/
def read64 (buf : Addr) (count : ℕ) : Client × Result :=
  transferResult buf (cl.realRead cfg fd buf count)

/-- So does the wrapper of `readv`. Its result has the bytes in the order in which
they are put into the buffers. -/
def readv (iov : List (Addr × ℕ)) : Client × Result :=
  let r := Posix.readv cfg.files cl.kernel fd (iov.map Prod.snd)
  ({ cl with kernel := r.2, memory := cl.memory.scatter iov (r.1.getD []) },
    ⟨transferred r.1, r.1.getD []⟩)

end Wrappers

variable (cfg : Config) (dlsym : Symbol → Bool) (fd : Fd) (s : Session)

def answered (e : Entry) (r : Client × Result) : Session :=
  ⟨r.1, s.server, .here, s.trace ++ [(e.call fd, r.2)]⟩

/-- A wrapper once the real function is mapped. `lseek` and `lseek64` make the same
remote call. -/
def wrapper (s : Session) : Entry → Option Session
  | .read buf count cell => s.step cfg fd (.read buf count cell)
  | .read64 buf count => some (answered fd s (.read64 buf count) (read64 cfg s.client fd buf count))
  | .readv iov => some (answered fd s (.readv iov) (readv cfg s.client fd iov))
  | .lseek offset whence => s.step cfg fd (.lseek offset whence)
  | .lseek64 offset whence => s.step cfg fd (.lseek offset whence)

/-- A call of the process. `MAP_OR_FAIL` ends the process when the symbol is not found. -/
def step (p : Process) (e : Entry) : Option Process :=
  if p.exited then none
  else if dlsym e.symbol then (wrapper cfg fd p.session e).map fun s ↦ ⟨s, false⟩
  else some { p with exited := true }

/-- A call that goes by the position acts on the description on which the last call
has left it, or both descriptions stand at the same offset. -/
def Continues : Entry → Prop
  | .read buf count cell => s.Continues cfg fd (.read buf count cell)
  | .read64 _ _ => s.side = .here ∨ s.Level fd
  | .readv _ => s.side = .here ∨ s.Level fd
  | .lseek offset whence => s.Continues cfg fd (.lseek offset whence)
  | .lseek64 offset whence => s.Continues cfg fd (.lseek offset whence)

instance : (e : Entry) → Decidable (Continues cfg fd s e)
  | .read buf count cell =>
    inferInstanceAs (Decidable (s.Continues cfg fd (.read buf count cell)))
  | .read64 _ _ => inferInstanceAs (Decidable (s.side = .here ∨ s.Level fd))
  | .readv _ => inferInstanceAs (Decidable (s.side = .here ∨ s.Level fd))
  | .lseek offset whence => inferInstanceAs (Decidable (s.Continues cfg fd (.lseek offset whence)))
  | .lseek64 offset whence =>
    inferInstanceAs (Decidable (s.Continues cfg fd (.lseek offset whence)))

/-- Sizes and positions are below 2^31, and the kernel takes the vector. -/
def Sized (t : Table Path) : Entry → Prop
  | .read _ count _ => count < 2 ^ 31
  | .read64 _ count => count < 2 ^ 31
  | .readv iov => iov.length ≤ iovMax ∧ (iov.map Prod.snd).sum < 2 ^ 31
  | .lseek offset whence => InRange cfg t (.lseek fd offset whence)
  | .lseek64 offset whence => InRange cfg t (.lseek fd offset whence)

instance (t : Table Path) : (e : Entry) → Decidable (Sized cfg fd t e)
  | .read _ count _ => inferInstanceAs (Decidable (count < 2 ^ 31))
  | .read64 _ count => inferInstanceAs (Decidable (count < 2 ^ 31))
  | .readv iov =>
    inferInstanceAs (Decidable (iov.length ≤ iovMax ∧ (iov.map Prod.snd).sum < 2 ^ 31))
  | .lseek offset whence => inferInstanceAs (Decidable (InRange cfg t (.lseek fd offset whence)))
  | .lseek64 offset whence => inferInstanceAs (Decidable (InRange cfg t (.lseek fd offset whence)))

def offsetOn : Side → Option ℕ
  | .remote => ((s.client.fdRedirMap fd).bind s.server.fds).map Description.pos
  | .here => (s.client.kernel fd).map Description.pos

def actsOn : Entry → Option Side
  | .read _ _ _ => some (s.answers cfg fd)
  | .read64 _ _ => some .here
  | .readv _ => some .here
  | .lseek _ whence => if whence = 1 then some .remote else none
  | .lseek64 _ whence => if whence = 1 then some .remote else none

/-- A call that goes by the position finds it where the calls before have left it on
the unwrapped descriptor. -/
def Observes (t₀ : Table Path) (s : Session) (e : Entry) : Prop :=
  ∀ side ∈ actsOn cfg fd s e,
    offsetOn fd s side = (after (posix cfg) t₀ s.trace fd).map Description.pos

/-- The process takes its next call. -/
def GoesOn (p : Process) (e : Entry) : Prop := ∀ p' ∈ step cfg dlsym fd p e, p'.exited = false

/-- A call of a run that is compared with the unwrapped descriptor. -/
def Observed (t₀ : Table Path) (p : Process) (e : Entry) : Prop :=
  Sized cfg fd (after (posix cfg) t₀ p.session.trace) e ∧ GoesOn cfg dlsym fd p e ∧
    Observes cfg fd t₀ p.session e

def Permitted (t₀ : Table Path) (p : Process) (e : Entry) : Prop :=
  Sized cfg fd (after (posix cfg) t₀ p.session.trace) e ∧ dlsym e.symbol = true ∧
    Continues cfg fd p.session e

instance (t₀ : Table Path) (p : Process) (e : Entry) : Decidable (Permitted cfg dlsym fd t₀ p e) :=
  inferInstanceAs (Decidable (_ ∧ _))

variable {cfg dlsym fd s} {a : Fd} {path q : Path} {b : Bytes} {t₀ : Table Path} {s' : Session}

theorem here_follows (h : Follows cfg fd a path q b t₀ s) (hside : s.side = .here ∨ s.Level fd)
    {e : Entry} {buf : Addr} {n : ℕ} (he : e.call fd = .read fd buf n) {r : Client × Result}
    (hr : ∀ l, s.client.kernel fd = some ⟨path, l⟩ →
      r.2 = ⟨(slice b l n).length, slice b l n⟩ ∧
        r.1.kernel fd = some ⟨path, l + (slice b l n).length⟩)
    (hm : r.1.fdMap = s.client.fdMap) (hredir : r.1.fdRedirMap = s.client.fdRedirMap) :
    Follows cfg fd a path q b t₀ (answered fd s e r) := by
  obtain ⟨l, k, hp, ht, ha⟩ := h
  obtain ⟨hres, hkernel⟩ := hr l hp.here
  have hpos : after (posix cfg) t₀ s.trace fd = some ⟨path, l⟩ := by
    rw [ht]
    rcases hside with hs | hlevel
    · rw [hs]
      rfl
    · rw [hp.level_iff.mp hlevel]
      cases s.side <;> rfl
  have hp' : Paired cfg fd a path q b r.1 s.server (l + (slice b l n).length) k :=
    ⟨hm ▸ hp.tracked, hredir ▸ hp.redir, hp.file, hkernel, hp.copy, hp.there⟩
  rw [answered, he, hres]
  exact .concat hp' ha (posix_read hpos hp.file buf n) (by simp [Side.pick])

theorem read64_follows (h : Follows cfg fd a path q b t₀ s)
    (hside : s.side = .here ∨ s.Level fd) (buf : Addr) (count : ℕ) :
    Follows cfg fd a path q b t₀
      (answered fd s (.read64 buf count) (read64 cfg s.client fd buf count)) := by
  have hb : cfg.files path = some b := by
    obtain ⟨l, k, hp, -⟩ := h
    exact hp.file
  refine here_follows h hside rfl (fun l hl ↦ ?_) rfl rfl
  simp [read64, realRead, read_of_open hl hb, transferResult]

theorem readv_follows (h : Follows cfg fd a path q b t₀ s)
    (hside : s.side = .here ∨ s.Level fd) {iov : List (Addr × ℕ)} (hlen : iov.length ≤ iovMax) :
    Follows cfg fd a path q b t₀ (answered fd s (.readv iov) (readv cfg s.client fd iov)) := by
  have hb : cfg.files path = some b := by
    obtain ⟨l, k, hp, -⟩ := h
    exact hp.file
  refine here_follows h hside rfl (fun l hl ↦ ?_) rfl rfl
  simp [readv, Posix.readv, hlen, read_of_open hl hb]

theorem wrapper_follows {e : Entry} (h : Follows cfg fd a path q b t₀ s)
    (hsize : Sized cfg fd (after (posix cfg) t₀ s.trace) e) (hside : Continues cfg fd s e)
    (hs : wrapper cfg fd s e = some s') : Follows cfg fd a path q b t₀ s' := by
  cases e with
  | read buf count cell => exact read_follows h hsize hside hs
  | read64 buf count =>
    cases hs
    exact read64_follows h hside buf count
  | readv iov =>
    cases hs
    exact readv_follows h hside hsize.1
  | lseek offset whence => exact lseek_follows h hsize hside hs
  | lseek64 offset whence => exact lseek_follows h hsize hside hs

section Process

variable {p p' : Process} {e : Entry}

/-- A call goes through a wrapper, or ends the process. -/
theorem step_cases (h : step cfg dlsym fd p e = some p') :
    p.exited = false ∧
      ((dlsym e.symbol = true ∧ p'.exited = false ∧
          wrapper cfg fd p.session e = some p'.session) ∨
        dlsym e.symbol = false ∧ p' = { p with exited := true }) := by
  unfold step at h
  split at h
  case isTrue => cases h
  case isFalse hrun =>
    refine ⟨by simpa using hrun, ?_⟩
    split at h
    case isTrue hfound =>
      obtain ⟨s, hs, rfl⟩ := Option.map_eq_some_iff.mp h
      exact .inl ⟨hfound, rfl, hs⟩
    case isFalse hnone =>
      cases h
      exact .inr ⟨by simpa using hnone, rfl⟩

theorem goesOn_iff (h : step cfg dlsym fd p e = some p') :
    GoesOn cfg dlsym fd p e ↔ dlsym e.symbol = true := by
  simp only [GoesOn, h, Option.mem_some_iff, forall_eq']
  rcases (step_cases h).2 with ⟨hfound, hgo, -⟩ | ⟨hnone, rfl⟩
  · exact iff_of_true hgo hfound
  · simp [hnone]

theorem step_follows (h : Follows cfg fd a path q b t₀ p.session)
    (hl : Permitted cfg dlsym fd t₀ p e) (hs : step cfg dlsym fd p e = some p') :
    p'.exited = false ∧ Follows cfg fd a path q b t₀ p'.session := by
  obtain ⟨hsize, hfound, hside⟩ := hl
  rcases (step_cases hs).2 with ⟨-, hgo, hw⟩ | ⟨hnone, -⟩
  · exact ⟨hgo, wrapper_follows h hsize hside hw⟩
  · rw [hfound] at hnone
    cases hnone

end Process

theorem offsetOn_of_paired {l r : ℕ} (hp : Paired cfg fd a path q b s.client s.server l r)
    (side : Side) : offsetOn fd s side = some (side.pick l r) := by
  cases side <;> simp [offsetOn, hp.redir, hp.there, hp.here, Side.pick]

/-- The position is found where it was left exactly if the call continues there. -/
theorem observes_iff {e : Entry} (h : Follows cfg fd a path q b t₀ s) :
    Observes cfg fd t₀ s e ↔ Continues cfg fd s e := by
  obtain ⟨l, r, hp, ht, -⟩ := h
  have hside (side : Side) : offsetOn fd s side = (after (posix cfg) t₀ s.trace fd).map
      Description.pos ↔ s.side = side ∨ s.Level fd := by
    rw [offsetOn_of_paired hp, ht, hp.level_iff]
    cases s.side <;> cases side <;> simp [Side.pick, eq_comm]
  cases e with
  | read buf count cell => simp [Observes, actsOn, hside, Continues, Session.Continues]
  | read64 buf count => simp [Observes, actsOn, hside, Continues]
  | readv iov => simp [Observes, actsOn, hside, Continues]
  | lseek offset whence =>
    by_cases hw : whence = 1 <;> simp [Observes, actsOn, hside, Continues, Session.Continues, hw]
  | lseek64 offset whence =>
    by_cases hw : whence = 1 <;> simp [Observes, actsOn, hside, Continues, Session.Continues, hw]

section Total

variable {cl cl' : Client} {host : Host}

theorem exchange_cache {sent : Sent} {buf cell : Addr} {srv : Server} {ret : ℤ}
    (h : s.exchange sent buf cell cl = some (cl', srv, ret)) :
    cl'.addressCache = cl.addressCache := by
  simp only [Session.exchange] at h
  split at h
  · cases h
    rfl
  · cases h

theorem remotePart_known {op : Op} {srv : Server} {ret : ℤ} (hk : s.client.Known cfg host)
    (h : s.remotePart cfg fd op = some (cl, srv, ret)) : cl.Known cfg host := by
  cases op with
  | read buf count cell =>
    simp only [Session.remotePart] at h
    split at h
    case h_1 cl₁ sent hstart => exact (startCall_known hstart hk).congr (exchange_cache h)
    case h_2 cl₁ hstart =>
      cases h
      exact startCall_known hstart hk
    case h_3 => cases h
  | lseek offset whence =>
    simp only [Session.remotePart] at h
    split at h
    case h_1 cl₁ sent hstart =>
      split at h
      · cases h
        exact (startCall_known hstart hk).congr rfl
      · cases h
    case h_2 cl₁ hstart =>
      cases h
      exact startCall_known hstart hk
    case h_3 => cases h

theorem wrapper_known {e : Entry} (hk : s.client.Known cfg host)
    (hs : wrapper cfg fd s e = some s') : s'.client.Known cfg host := by
  have hremote {op : Op} (hs : s.step cfg fd op = some s') : s'.client.Known cfg host := by
    obtain ⟨cl, srv, ret, hpart, rfl⟩ := step_shape hs
    obtain ⟨kernel, memory, he, -⟩ := cl.finishCall_shape cfg (op.call fd) ret
    have hcache : (cl.finishCall cfg (op.call fd) ret).1.addressCache = cl.addressCache := by
      rw [he]
    exact (remotePart_known hk hpart).congr hcache
  cases e with
  | read buf count cell => exact hremote hs
  | read64 buf count =>
    cases hs
    exact hk
  | readv iov =>
    cases hs
    exact hk
  | lseek offset whence => exact hremote hs
  | lseek64 offset whence => exact hremote hs

theorem step_known {p p' : Process} {e : Entry} (hk : p.session.client.Known cfg host)
    (hs : step cfg dlsym fd p e = some p') : p'.session.client.Known cfg host := by
  rcases (step_cases hs).2 with ⟨-, -, hw⟩ | ⟨-, rfl⟩
  · exact wrapper_known hk hw
  · exact hk

def Entry.buffer : Entry → Option Addr
  | .read buf _ _ => some buf
  | _ => none

theorem wrapper_total {e : Entry} (h : Follows cfg fd a path q b t₀ s)
    (hk : s.client.Known cfg (cfg.host path)) (hbuf : ∀ buf ∈ e.buffer, buf ≠ 0)
    (hsize : Sized cfg fd (after (posix cfg) t₀ s.trace) e) :
    ∃ s', wrapper cfg fd s e = some s' := by
  obtain ⟨l, r, hp, -⟩ := h
  have hseek {offset whence : ℤ}
      (hin : InRange cfg (after (posix cfg) t₀ s.trace) (.lseek fd offset whence)) :
      ∃ s', s.step cfg fd (.lseek offset whence) = some s' := by
    obtain ⟨⟨cl, sent⟩, hr⟩ := remoteLseek_starts hp.tracked hk (int32 offset) whence
    have hstart : s.client.startCall cfg (.lseek fd offset whence) 0 = some (cl, sent) := by
      simp [startCall, hr, Except.toOption]
    obtain ⟨hp', x, rfl, hreq⟩ := seek_started hp hin.2.1 hstart
    obtain ⟨srv', hserve, -⟩ := handle_seek hp' offset whence
    exact Option.isSome_iff_exists.mp
      (by simp [Session.step, Session.remotePart, hstart, hreq, hserve])
  cases e with
  | read buf count cell =>
    obtain ⟨⟨cl, sent⟩, hr⟩ :=
      remoteTransfer_starts hp.tracked hk (hbuf buf rfl) count (-1) cell
    have hstart : s.client.startCall cfg (.read fd buf count) cell = some (cl, sent) := by
      simp [startCall, ftcRemoteRead, hr, Except.toOption]
    rcases read_started hp hstart with ⟨-, rfl, -⟩ | ⟨-, hp', x, rfl, hreq⟩
    · exact Option.isSome_iff_exists.mp
        (by simp [wrapper, Session.step, Session.remotePart, hstart])
    · obtain ⟨cl', srv', he, -⟩ := exchange_served buf cell hp' hreq hsize
      exact Option.isSome_iff_exists.mp
        (by simp [wrapper, Session.step, Session.remotePart, hstart, he])
  | read64 buf count => exact ⟨_, rfl⟩
  | readv iov => exact ⟨_, rfl⟩
  | lseek offset whence => exact hseek hsize
  | lseek64 offset whence => exact hseek hsize

end Total

/-- Every call returns and finds the position where the calls before have left it exactly
if the real function of each is found and each continues on the description that holds the
position, and then the calls give the results of an unwrapped descriptor, and each next one
returns. -/
theorem entry_points_share_position (cfg : Config) (dlsym : Symbol → Bool) (fd a : Fd)
    (path q : Path) (b : Bytes) (s₀ : Session) (p : Process) (es : List Entry)
    (hp : Paired cfg fd a path q b s₀.client s₀.server 0 0)
    (hk : s₀.client.Known cfg (cfg.host path)) (htrace : s₀.trace = [])
    (hrun : exec (step cfg dlsym fd) ⟨s₀, false⟩ es = some p) :
    (Along (step cfg dlsym fd) (Observed cfg dlsym fd s₀.client.kernel) ⟨s₀, false⟩ es ↔
      Along (step cfg dlsym fd) (Permitted cfg dlsym fd s₀.client.kernel) ⟨s₀, false⟩ es) ∧
    (Along (step cfg dlsym fd) (Permitted cfg dlsym fd s₀.client.kernel) ⟨s₀, false⟩ es →
      p.exited = false ∧ Agrees (posix cfg) s₀.client.kernel p.session.trace ∧
      ∀ e : Entry, (∀ buf ∈ e.buffer, buf ≠ 0) →
        Sized cfg fd (after (posix cfg) s₀.client.kernel p.session.trace) e →
        dlsym e.symbol = true →
        ∃ p', step cfg dlsym fd p e = some p' ∧ p'.exited = false) := by
  have h₀ : Follows cfg fd a path q b s₀.client.kernel s₀ := .start hp htrace
  constructor
  · refine Along.congr_of_step (I := fun v ↦ Follows cfg fd a path q b s₀.client.kernel v.session)
      (fun v e v' h hv ↦ ?_) h₀ hrun
    refine ⟨and_congr_right fun _ ↦ ?_, fun hl ↦ (step_follows h hl hv).2⟩
    exact and_congr (goesOn_iff hv) (observes_iff h)
  · intro hok
    obtain ⟨hgo, hfollows, hknown⟩ := (Reach.of_exec hrun hok).invariant
      (fun v ↦ v.exited = false ∧ Follows cfg fd a path q b s₀.client.kernel v.session ∧
        v.session.client.Known cfg (cfg.host path))
      ⟨rfl, h₀, hk⟩ fun v e v' h hl hv ↦
        ⟨(step_follows h.2.1 hl hv).1, (step_follows h.2.1 hl hv).2, step_known h.2.2 hv⟩
    refine ⟨hgo, ?_, fun e hbuf hsize hfound ↦ ?_⟩
    · obtain ⟨-, -, -, -, ha⟩ := hfollows
      exact ha
    · obtain ⟨s', hs'⟩ := wrapper_total hfollows hknown hbuf hsize
      exact ⟨⟨s', false⟩, by simp [step, hgo, hfound, hs'], rfl⟩

def levelRun : List Entry :=
  [.read 64 2 8, .lseek 0 0, .readv [(64, 1), (72, 2)], .lseek64 3 0, .read 64 4 8]

theorem entry_points_share_position_level :
    ∃ p, exec (step sampleConfig glibc 3) ⟨openSession, false⟩ levelRun = some p ∧
      p.session.trace.map Prod.snd =
        [⟨2, [1, 2]⟩, ⟨0, []⟩, ⟨3, [1, 2, 3]⟩, ⟨3, []⟩, ⟨1, [4]⟩] ∧
      Agrees (posix sampleConfig) openSession.client.kernel p.session.trace := by
  obtain ⟨p, hp, hres⟩ := (Option.any_eq_true _ _).mp
    (show (exec (step sampleConfig glibc 3) ⟨openSession, false⟩ levelRun).any (fun p ↦
      p.session.trace.map Prod.snd =
        [⟨2, [1, 2]⟩, ⟨0, []⟩, ⟨3, [1, 2, 3]⟩, ⟨3, []⟩, ⟨1, [4]⟩]) = true by decide +kernel)
  refine ⟨p, hp, by simpa using hres, ?_⟩
  have hknown : openSession.client.Known sampleConfig (sampleConfig.host samplePath) :=
    .inr ⟨_, rfl, (0, ['a']), by simp, by decide +kernel⟩
  exact ((entry_points_share_position _ glibc 3 7 samplePath samplePath [1, 2, 3, 4] openSession p
    levelRun openSession_paired hknown rfl hp).2 (by decide +kernel)).2.1

/-- A `readv` after a `read` starts at the beginning again. -/
theorem entry_points_differ :
    ¬∀ (es : List Entry) (p : Process),
      exec (step sampleConfig glibc 3) ⟨openSession, false⟩ es = some p →
      Agrees (posix sampleConfig) openSession.client.kernel p.session.trace := by
  intro h
  obtain ⟨p, hp, hres⟩ := (Option.any_eq_true _ _).mp
    (show (exec (step sampleConfig glibc 3) ⟨openSession, false⟩
      [.read 64 2 8, .readv [(64, 2)]]).any (fun p ↦ p.session.trace =
        [(.read 3 64 2, ⟨2, [1, 2]⟩), (.read 3 0 2, ⟨2, [1, 2]⟩)]) = true by decide +kernel)
  have ha := h _ p hp
  rw [show p.session.trace = _ by simpa using hres] at ha
  exact absurd ha.2.1 (by decide +kernel)

end FTCache.EntryPoints
