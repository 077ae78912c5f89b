import FTCache.LateMessages
import FTCache.OwnFile
import FTCache.RemoteCalls

namespace FTCache.KeptOpen

open Runs Posix Words Memory World Client Flights StackFrames LateMessages Descriptors NvmeCache

variable {C : Type} {y : Layout} {cfg : Config}

/-- A client has `path` open as `fd`, for which it holds the server descriptor `a`,
and has found the server. -/
structure Tracks (cfg : Config) (cl : Client) (fd a : Fd) (path : Path) : Prop where
  tracked : cl.fdMap fd = some path
  redir : cl.fdRedirMap fd = some a
  here : (cl.kernel fd).map Description.file = some path
  known : cl.Known cfg (cfg.host path)

/-- The open of `fd` has been answered with a server descriptor of its file or of a
complete copy. -/
structure Opened (cfg : Config) (w : World C) (c : C) (fd a : Fd) (path : Path) : Prop where
  client : Tracks cfg (w.clients c) fd a path
  server : Backs cfg (w.servers (cfg.host path)) a path

/-- Neither does the client close `fd`, nor a request its server descriptor. -/
def StaysOpen (cfg : Config) (c : C) (fd a : Fd) (path : Path) (w : World C) (l : Label C) :
    Prop :=
  (∀ x ∈ l.calling, x ≠ (c, .close fd)) ∧
    ∀ x ∈ l.serving, ∀ f ∈ w.net x.1,
      f.sent.host = cfg.host path → f.sent.request ≠ .closeRpc ⟨a⟩

/-- The addresses of the call in progress: its frame and its buffer. -/
def Held (y : Layout) (cl : Client) (a : Addr) : Prop :=
  ∃ p ∈ cl.blocked, (framed p.call = true ∧ Within p.cell y.size a) ∨
    ∃ x ∈ p.call.transfer, Within x.2.1 x.2.2.1 a

instance (y : Layout) (cl : Client) : DecidablePred (Held y cl) := fun a ↦
  inferInstanceAs (Decidable (∃ p ∈ cl.blocked, (framed p.call = true ∧ Within p.cell y.size a) ∨
    ∃ x ∈ p.call.transfer, Within x.2.1 x.2.2.1 a))

/-- The entry that an open reply makes in `fd_redir_map`. -/
def entered (f : Flight C) : Label C → Option (Fd × Fd)
  | .reply _ =>
    match f.stage, f.sent.callback with
    | .reply out, .openCb j _ => some (j, out)
    | _, _ => none
  | _ => none

/-- An open reply puts no other server descriptor in the place of that of `fd`. -/
def KeepsServerFd (cl : Client) (fd : Fd) (f : Flight C) (l : Label C) : Prop :=
  ∀ x ∈ entered f l, x.1 = fd → cl.fdRedirMap fd = some x.2

instance (cl : Client) (fd : Fd) (f : Flight C) (l : Label C) :
    Decidable (KeepsServerFd cl fd f l) :=
  inferInstanceAs (Decidable (∀ x ∈ entered f l, x.1 = fd → cl.fdRedirMap fd = some x.2))

/-- What arrives for a request that `c` has given up writes into the frame and the buffer of the
call in progress nothing but what is there, and leaves the server descriptor of `fd`. -/
def LateMisses (y : Layout) (c : C) (fd : Fd) (w : World C) (l : Label C) : Prop :=
  ∀ id ∈ delivers l, ∀ f ∈ w.net id, f.client = c → GivenUp w id f →
    Spares (Held y (w.clients c)) (w.clients c).memory (stored y (w.clients c).memory f l) ∧
      KeepsServerFd (w.clients c) fd f l

/-- `fd` and its server descriptor stay open, and late messages pass by. -/
def Undisturbed (y : Layout) (cfg : Config) (c : C) (fd a : Fd) (path : Path) (w : World C)
    (l : Label C) : Prop :=
  StaysOpen cfg c fd a path w l ∧ LateMisses y c fd w l

instance [DecidableEq C] (cfg : Config) (c : C) (fd a : Fd) (path : Path) (w : World C)
    (l : Label C) : Decidable (StaysOpen cfg c fd a path w l) :=
  inferInstanceAs (Decidable (_ ∧ ∀ x ∈ l.serving, ∀ f ∈ w.net x.1,
    f.sent.host = cfg.host path → f.sent.request ≠ .closeRpc ⟨a⟩))

instance [DecidableEq C] (y : Layout) (c : C) (fd : Fd) (w : World C) (l : Label C) :
    Decidable (LateMisses y c fd w l) :=
  inferInstanceAs (Decidable (∀ id ∈ delivers l, ∀ f ∈ w.net id, f.client = c → GivenUp w id f →
    Spares (Held y (w.clients c)) (w.clients c).memory (stored y (w.clients c).memory f l) ∧
      KeepsServerFd (w.clients c) fd f l))

instance [DecidableEq C] (y : Layout) (cfg : Config) (c : C) (fd a : Fd) (path : Path)
    (w : World C) (l : Label C) : Decidable (Undisturbed y cfg c fd a path w l) :=
  inferInstanceAs (Decidable (_ ∧ _))

section Client

variable {cl cl' : Client} {fd a : Fd} {path : Path}

theorem Tracks.congr (h : Tracks cfg cl fd a path) (hm : cl'.fdMap = cl.fdMap)
    (hr : cl'.fdRedirMap = cl.fdRedirMap) (hk : cl'.kernel = cl.kernel)
    (hc : cl'.addressCache = cl.addressCache) : Tracks cfg cl' fd a path := by
  obtain ⟨htracked, hredir, hhere, hknown⟩ := h
  exact ⟨hm ▸ htracked, hr ▸ hredir, hk ▸ hhere, hknown.congr hc⟩

theorem finish_tracks (h : Tracks cfg cl fd a path) {k : Call} (hk : k ≠ .close fd) (ret : ℤ) :
    Tracks cfg (cl.finishCall cfg k ret).1 fd a path := by
  obtain ⟨kernel, memory, he, hfile⟩ := cl.finishCall_shape cfg k ret
  have hkept := hfile fd
  rw [if_neg hk] at hkept
  rw [he]
  exact ⟨h.tracked, h.redir, hkept.trans h.here, h.known⟩

theorem start_tracks (h : Tracks cfg cl fd a path) {k : Call} (hk : k ≠ .close fd) {cell : Addr}
    {s : Option Sent} (hs : cl.startCall cfg k cell = some (cl', s)) :
    Tracks cfg cl' fd a path := by
  have hknown := startCall_known hs h.known
  -- the kernel grants no number that is in use
  have hopen {p : Path} {j : Fd} (hg : Grants cfg.files cl.kernel p j) : fd ≠ j := by
    intro heq
    subst heq
    simpa [hg.2.2] using h.here
  cases startCall_started hs with
  | openUntracked pathname p flags j hp hg ht =>
    exact ⟨h.tracked, h.redir, by simpa [hopen hg] using h.here, hknown⟩
  | openOver pathname p flags j hp hg ht ho =>
    exact ⟨by simpa [hopen hg] using h.tracked, h.redir, by simpa [hopen hg] using h.here, hknown⟩
  | openSent pathname p flags j cache hp hg ht ho =>
    exact ⟨by simpa [hopen hg] using h.tracked, h.redir, by simpa [hopen hg] using h.here, hknown⟩
  | transferLocal => exact h
  | transferSent k p j buf count offset cache hk' hp ho =>
    exact ⟨h.tracked, PMap.touch_kept h.redir j, h.here, hknown⟩
  | lseekLocal => exact h
  | lseekSent p j offset whence cache hp =>
    exact ⟨h.tracked, PMap.touch_kept h.redir j, h.here, hknown⟩
  | closeLocal j hl =>
    have hj : fd ≠ j := fun he ↦ hk (by rw [he])
    exact ⟨by simpa [hj] using h.tracked, h.redir, h.here, hknown⟩
  | closeSent p j cache hp ho =>
    have hj : fd ≠ j := fun he ↦ hk (by rw [he])
    exact ⟨by simpa [hj] using h.tracked, by simpa [hj] using h.redir, h.here, hknown⟩

end Client

section Server

variable {srv : Server} {a : Fd} {path : Path}

theorem handle_backs (h : Backs cfg srv a path) {r : Request} (hr : r ≠ .closeRpc ⟨a⟩) (env : Env) :
    Backs cfg ((srv.handle r env).after srv) a path := by
  have hjob : Backs (Job.mk cfg (fun _ _ ↦ none) (by simp)).cfg srv a path := h
  refine hjob.of_view (srv.handle_view r env) ?_
  obtain ⟨q, n, b, hfd, -⟩ := h
  cases r with
  | openRpc inp =>
    simp only [Server.handle, Server.ftcOpenRpcHandler, Handled.after]
    rcases sysOpen_cases srv env.opened (srv.redirPath inp.path) with he | ⟨j, -, hfree, he⟩
    · rw [he]
    · have hj : a ≠ j := by
        intro heq
        subst heq
        simp [hfree] at hfd
      simp [he, hj]
  | baseRpc inp => exact (transfer_moved srv inp env).file a
  | seekRpc inp => exact (seek_moved srv inp).file a
  | closeRpc inp =>
    have ha : a ≠ inp.fd := by
      intro heq
      subst heq
      exact hr rfl
    simp only [Server.handle, Server.ftcCloseRpcHandler]
    split
    · simp [Handled.after, ha]
    · rfl

theorem moves_backs {srv' : Server} (h : Backs cfg srv a path) (hm : Server.Moves srv srv') :
    Backs cfg srv' a path := by
  have hfds : srv'.fds = srv.fds := by cases hm <;> rfl
  obtain ⟨q, n, b, hfd, hq, hb, hset⟩ := h
  obtain ⟨hq', hset'⟩ := files_kept hm hq hset
  exact ⟨q, n, b, by rwa [hfds], hq', hb, hset'⟩

/-- A read that is answered by the server descriptor gets the bytes of the file there. -/
theorem pushed_slice (h : Backs cfg srv a path) {b : Bytes} (hb : cfg.files path = some b) {fd : Fd}
    {count : ℕ} (hc : count < 2 ^ 31) {offset : ℤ} {env : Env} {srv' : Server} {bytes : Bytes}
    (hown : OwnFile.OwnRead srv env (.baseRpc (Client.transferIn a fd count offset)))
    (hpush : srv.ftcRpcHandler (Client.transferIn a fd count offset) env = .pushing srv' bytes) :
    ∃ n, (srv.fds a).map Description.pos = some n ∧
      bytes = slice b (if offset = -1 then n else offset.toNat) count := by
  obtain ⟨q, n, b', hfd, hq, hb', -⟩ := h
  obtain rfl : b = b' := Option.some.inj (hb.symm.trans hb')
  obtain ⟨hpushes, -⟩ := OwnFile.ftcRpcHandler_own hown fun d hd ↦ by
    obtain rfl := Option.some.inj (hfd.symm.trans hd)
    exact hq
  obtain ⟨d, hd, hbytes⟩ := hpushes srv' bytes hpush
  rw [(Server.transferIn_sizes a fd offset hc).1] at hbytes
  exact ⟨d.pos, congrArg (Option.map Description.pos) hd, hbytes⟩

end Server

/-- What `ftc_read_block` hands to its wrapper: a negative value, or the number of the bytes that
the server has left in the buffer. -/
def Brought (m : Memory UInt8) (buf count : ℕ) (promise : Bytes → Prop) (out : ℤ) : Prop :=
  (-2 ^ 31 ≤ out ∧ out < 0) ∨ ∃ bytes, promise bytes ∧ bytes.length ≤ count ∧ out = bytes.length ∧
    m.load buf bytes.length = bytes

def transferSent (cfg : Config) (path : Path) (a fd : Fd) (buf : Addr) (count : ℕ) (offset : ℤ)
    (cell : Addr) : Sent :=
  ⟨cfg.host path, path, .baseRpc (Client.transferIn a fd count offset), .readCb buf cell⟩

/-- How far the request of a read has come: it has left the network for the frame of its call,
or is on its way, with what the server promises. -/
def Stands (c : C) (cl : Client) (sent : Sent) (buf : Addr) (count : ℕ) (cell : Addr)
    (promise : Bytes → Prop) : Option (Flight C) → Prop
  | none => ∃ out, cl.cells cell = ⟨true, out⟩ ∧ Brought cl.memory buf count promise out
  | some f => (f.client = c ∧ f.sent = sent ∧ cl.cells cell = {}) ∧
    match f.stage with
    | .request => True
    | .push bytes => promise bytes ∧ bytes.length ≤ count
    | .reply out => Brought cl.memory buf count promise out

/-- A call in progress is not the open of `fd` or its close, and a read of `fd` waits for what
the server promises. -/
structure Waits (cfg : Config) (w : World C) (c : C) (fd a : Fd) (path : Path)
    (promise : Call → Bytes → Prop) (p : Pending) : Prop where
  closes : p.call ≠ .close fd
  opens : ∀ f ∈ w.net p.request, ∀ cell, f.sent.callback ≠ .openCb fd cell
  transfer : ∀ buf count offset, p.call.transfer = some (fd, buf, count, offset) →
    count < 2 ^ 31 → Stands c (w.clients c) (transferSent cfg path a fd buf count offset p.cell)
      buf count p.cell (promise p.call) (w.net p.request)

/-- What holds of a client as long as it has `fd` open. -/
structure Keeps (cfg : Config) (w : World C) (c : C) (fd a : Fd) (path : Path)
    (promise : Call → Bytes → Prop) : Prop where
  opened : Opened cfg w c fd a path
  waits : ∀ p ∈ (w.clients c).blocked, Waits cfg w c fd a path promise p

section Pending

variable {cl cl' : Client} {c : C} {buf cell : Addr} {count : ℕ} {promise promise' : Bytes → Prop}

theorem Brought.congr {m m' : Memory UInt8} {out : ℤ} (h : Brought m buf count promise out)
    (hp : ∀ bytes, promise bytes → promise' bytes) (hm : m'.load buf count = m.load buf count) :
    Brought m' buf count promise' out := by
  refine h.imp_right fun ⟨bytes, hprom, hlen, hout, hload⟩ ↦
    ⟨bytes, hp bytes hprom, hlen, hout, ?_⟩
  rw [Memory.load_take m' buf hlen, hm, ← Memory.load_take m buf hlen, hload]

theorem Stands.frame {sent : Sent} {o : Option (Flight C)}
    (h : Stands c cl sent buf count cell promise o) (hp : ∀ bytes, promise bytes → promise' bytes)
    (hcells : cl'.cells cell = cl.cells cell)
    (hm : cl'.memory.load buf count = cl.memory.load buf count) :
    Stands c cl' sent buf count cell promise' o := by
  cases o with
  | none =>
    obtain ⟨out, hcell, hout⟩ := h
    exact ⟨out, hcells.trans hcell, hout.congr hp hm⟩
  | some f =>
    obtain ⟨⟨hc, hsent, hcell⟩, hstage⟩ := h
    refine ⟨⟨hc, hsent, hcells.trans hcell⟩, ?_⟩
    cases hst : f.stage with
    | request => trivial
    | push bytes =>
      simp only [hst] at hstage ⊢
      exact hstage.imp_left (hp bytes)
    | reply out =>
      simp only [hst] at hstage ⊢
      exact hstage.congr hp hm

end Pending

variable {w w' : World C} {c : C} {fd a : Fd} {path : Path} {p : Pending} {l : Label C}
variable {promise promise' : Call → Bytes → Prop}

/-- A reply for another descriptor, or one that passes by, leaves the maps as they are. -/
theorem reply_tracks {id : ℕ} {f : Flight C} {out : ℤ} {cl : Client}
    (h : Keeps cfg w f.client fd a path promise) (hl : LateMisses y f.client fd w (.reply id))
    (hf : w.net id = some f) (hst : f.stage = .reply out)
    (hc : (w.clients f.client).complete out f.sent.callback = .ok cl) :
    Tracks cfg cl fd a path := by
  have htracks := h.opened.client
  cases hcb : f.sent.callback with
  | none =>
    rw [hcb] at hc
    cases hc
    exact htracks
  | seekCb =>
    rw [hcb] at hc
    cases hc
    exact htracks.congr rfl rfl rfl rfl
  | readCb buf cell =>
    rw [hcb] at hc
    cases hc
    exact htracks.congr rfl rfl rfl rfl
  | openCb j cell =>
    rw [hcb] at hc
    cases hc
    by_cases hj : j = fd
    · have hgiven : GivenUp w id f := by
        refine ⟨by simp [hcb], by simp [hcb], ?_⟩
        rintro p hp rfl
        exact (h.waits p hp).opens f hf cell (by rw [hcb, hj])
      have hentered : (j, out) ∈ entered f (.reply id) := by simp [entered, hst, hcb]
      have hkeeps := (hl id rfl f hf rfl hgiven).2 (j, out) hentered hj
      have ha : out = a := Option.some.inj (hkeeps.symm.trans htracks.redir)
      exact ⟨htracks.tracked, by simp [setDone, hj, ha], htracks.here, htracks.known⟩
    · exact ⟨htracks.tracked, by simpa [setDone, Ne.symm hj] using htracks.redir, htracks.here,
        htracks.known⟩

variable [DecidableEq C]

theorem call_clients {c' : C} {k : Call} {cell : Addr} (h : w.call cfg c' k cell = some w') :
    ∃ cl s, (w.clients c').startCall cfg k cell = some (cl, s) ∧
      ((∃ ret, w'.clients = Function.update w.clients c' (cl.finishCall cfg k ret).1) ∨
        ∃ p, w'.clients = Function.update w.clients c' { cl with blocked := some p }) := by
  unfold World.call at h
  split at h
  case isTrue => cases h
  case isFalse =>
    obtain ⟨⟨cl, s⟩, hs, rfl⟩ := Option.map_eq_some_iff.mp h
    refine ⟨cl, s, hs, ?_⟩
    cases s with
    | none => exact .inl ⟨-1, by simp [proceed, returned, setClient]⟩
    | some s =>
      by_cases hcb : s.callback = .none
      · exact .inl ⟨0, by simp [proceed, hcb, returned, setClient, post, setFlight]⟩
      · refine .inr ⟨⟨k, w.next, s.host, cell⟩, ?_⟩
        cases hc : s.callback <;> simp_all [proceed, setClient, post, setFlight]

theorem step_tracks (h : Keeps cfg w c fd a path promise)
    (hl : Undisturbed y cfg c fd a path w l) (hw : World.step cfg w l = some w') :
    Tracks cfg (w'.clients c) fd a path := by
  have htracks := h.opened.client
  have hother {c' : C} {cl : Client} (hc : c = c' → Tracks cfg cl fd a path) :
      Tracks cfg (Function.update w.clients c' cl c) fd a path := by
    by_cases he : c = c'
    · subst he
      simpa using hc rfl
    · simpa [he] using htracks
  cases l with
  | call c' k cell =>
    obtain ⟨cl, s, hs, hcl⟩ := call_clients hw
    have hstart (hc : c = c') : Tracks cfg cl fd a path ∧ k ≠ .close fd := by
      subst hc
      have hk : k ≠ .close fd := fun he ↦ hl.1.1 (c, k) rfl (by rw [he])
      exact ⟨start_tracks htracks hk hs, hk⟩
    rcases hcl with ⟨ret, hcl⟩ | ⟨p, hcl⟩
    · rw [hcl]
      exact hother fun hc ↦ finish_tracks (hstart hc).1 (hstart hc).2 ret
    · rw [hcl]
      exact hother fun hc ↦ (hstart hc).1.congr rfl rfl rfl rfl
  | serve id env =>
    cases step_steps hw with
    | serve id env f hf hst ha => rwa [handled_clients]
  | push id =>
    cases step_steps hw with
    | push id f bytes buf cell hf hst hcb =>
      exact hother fun hc ↦ (hc ▸ htracks).congr rfl rfl rfl rfl
  | reply id =>
    cases step_steps hw with
    | reply id f out cl hf hst hc =>
      rw [noteReply_clients]
      refine hother fun he ↦ ?_
      subst he
      exact reply_tracks h hl.2 hf hst hc
  | wake c' =>
    cases step_steps hw with
    | wake c' p hb hr =>
      refine hother fun hc ↦ ?_
      subst hc
      refine finish_tracks ?_ (h.waits p hb).closes _
      exact htracks.congr rfl rfl rfl rfl
  | giveUp c' =>
    cases step_steps hw with
    | giveUp c' p hb ht =>
      refine hother fun hc ↦ ?_
      subst hc
      refine finish_tracks ?_ (h.waits p hb).closes _
      exact htracks.congr rfl rfl rfl rfl
  | mover h' m =>
    cases step_steps hw with
    | mover h' m srv ha hm => exact htracks
  | store c' addr bytes =>
    cases step_steps hw with
    | store c' addr bytes hb => exact hother fun hc ↦ (hc ▸ htracks).congr rfl rfl rfl rfl

/-- Only its close takes the server descriptor away, whatever else the servers do. -/
theorem steps_backs {l : Label C} (h : Backs cfg (w.servers (cfg.host path)) a path)
    (hl : StaysOpen cfg c fd a path w l) (hs : Steps cfg w l w') :
    Backs cfg (w'.servers (cfg.host path)) a path := by
  rcases steps_server hs (cfg.host path) with hsame | ⟨id, env, f, rfl, hf, hh, hafter⟩ | hm
  · rwa [hsame]
  · rw [hafter]
    exact handle_backs h (hl.2 (id, env) rfl f hf hh) env
  · exact moves_backs h hm

omit [DecidableEq C] in
/-- What leaves the frame and the buffer of the call in progress as they are, and its request,
leaves the call what it waits for. -/
theorem Waits.kept (h : Waits cfg w c fd a path promise p) (hview : (w.clients c).cells =
      y.view (w.clients c).memory) (hview' : (w'.clients c).cells = y.view (w'.clients c).memory)
    (hp : p ∈ (w.clients c).blocked) (hnet : w'.net p.request = w.net p.request)
    (hprom : ∀ k bytes, promise k bytes → promise' k bytes)
    (hm : ∀ x, Held y (w.clients c) x → (w'.clients c).memory x = (w.clients c).memory x) :
    Waits cfg w' c fd a path promise' p := by
  refine ⟨h.closes, hnet ▸ h.opens, fun buf count offset hk hc ↦ ?_⟩
  rw [hnet]
  refine (h.transfer buf count offset hk hc).frame (hprom p.call) ?_ (load_congr fun i hi ↦ ?_)
  · have hframed := framed_of_transfer (k := p.call) (by simp [hk])
    rw [hview, hview']
    exact y.view_congr fun i hi ↦ hm _ ⟨p, hp, .inl ⟨hframed, by omega, by omega⟩⟩
  · exact hm _ ⟨p, hp, .inr ⟨(fd, buf, count, offset), hk, Nat.le_add_right buf i,
      Nat.add_lt_add_left hi buf⟩⟩

omit [DecidableEq C] in
/-- What a read of `fd` that sees its answer returns. -/
theorem replied_brought (h : Waits cfg w c fd a path promise p) {buf : Addr} {count : ℕ}
    {offset : ℤ} (hk : p.call.transfer = some (fd, buf, count, offset)) (hc : count < 2 ^ 31)
    (hr : (w.clients c).replied p = true) :
    Brought (w.clients c).memory buf count (promise p.call) ((w.clients c).remoteValue p) := by
  have hframe : (w.clients c).remoteValue p = ((w.clients c).cells p.cell).bytesRead ∧
      ((w.clients c).cells p.cell).done = true := by
    obtain ⟨k, request, host, cell⟩ := p
    cases k with
    | read => exact ⟨rfl, hr⟩
    | pread => exact ⟨rfl, hr⟩
    | openFile => cases hk
    | lseek => cases hk
    | close => cases hk
  obtain ⟨hvalue, hdone⟩ := hframe
  have hs := h.transfer buf count offset hk hc
  rw [hvalue]
  cases hf : w.net p.request with
  | none =>
    rw [hf] at hs
    obtain ⟨out, hcell, hout⟩ := hs
    rwa [hcell]
  | some f =>
    rw [hf] at hs
    simp [hs.1.2.2] at hdone

theorem block_waits {k : Call} {cell : Addr} {cl : Client} {s : Sent}
    (h : Tracks cfg (w.clients c) fd a path) (hk : k ≠ .close fd)
    (hs : Started cfg (w.clients c) cell k cl (some s))
    (hnet : w'.net w.next = some ⟨c, s, .request⟩)
    (hcl : w'.clients c = { cl with blocked := some ⟨k, w.next, s.host, cell⟩ }) :
    Waits cfg (settle y w w' (.call c k cell)) c fd a path promise ⟨k, w.next, s.host, cell⟩ := by
  refine ⟨hk, fun f hf j hcb ↦ ?_, fun buf count offset hcall hc ↦ ?_⟩
  · obtain rfl := Option.some.inj (hnet.symm.trans hf)
    cases hs with
    | openSent pathname p flags fd' cache hp hg ht ho =>
      -- the kernel grants no number that is in use
      cases hcb
      simpa [hg.2.2] using h.here
    | transferSent => cases hcb
    | lseekSent => cases hcb
    | closeSent => cases hcb
  · have hwrites : writes y w w' (.call c k cell) c = y.setUp cell k := by simp [writes, hcl]
    have hcells : ((settle y w w' (.call c k cell)).clients c).cells cell = {} := by
      simp only [settle, settleClient, hwrites]
      exact (y.view_setUp _ cell (framed_of_transfer (by simp [hcall]))).2 (by simp [hcall])
    have hsent : s = transferSent cfg path a fd buf count offset cell := by
      cases hs with
      | transferSent k p fd' buf' count' offset' cache hk' hp hover =>
        obtain ⟨rfl, rfl, rfl, rfl⟩ :
            fd' = fd ∧ buf' = buf ∧ count' = count ∧ offset' = offset := by
          simpa using hk'.symm.trans hcall
        obtain rfl : path = p := Option.some.inj (h.tracked.symm.trans hp)
        rw [transferSent, PMap.index_of_some h.redir]
      | openSent => cases hcall
      | lseekSent => cases hcall
      | closeSent => cases hcall
    have hnet' : (settle y w w' (.call c k cell)).net w.next = some ⟨c, s, .request⟩ := hnet
    rw [hnet']
    exact ⟨⟨rfl, hsent, hcells⟩, trivial⟩

/-- How the server answers the read that `c` is blocked in. -/
def Serves (cfg : Config) (w : World C) (c : C) (fd a : Fd) (path : Path)
    (promise : Call → Bytes → Prop) (l : Label C) : Prop :=
  ∀ p ∈ (w.clients c).blocked, ∀ env, l = .serve p.request env →
    ∀ buf count offset, p.call.transfer = some (fd, buf, count, offset) → count < 2 ^ 31 →
      ∀ srv bytes, (w.servers (cfg.host path)).ftcRpcHandler (transferIn a fd count offset) env =
        .pushing srv bytes → promise p.call bytes

omit [DecidableEq C] in
theorem serve_stands {f : Flight C} {env : Env} {buf cell : Addr} {count : ℕ} {offset : ℤ}
    {promise promise' : Bytes → Prop} (hc : count < 2 ^ 31)
    (hf : w.net p.request = some f) (hst : f.stage = .request)
    (hpush : ∀ srv bytes, (w.servers (cfg.host path)).ftcRpcHandler
      (transferIn a fd count offset) env = .pushing srv bytes → promise' bytes)
    (h : Stands c (w.clients c) (transferSent cfg path a fd buf count offset cell) buf count cell
      promise (w.net p.request)) :
    Stands c (w.clients c) (transferSent cfg path a fd buf count offset cell) buf count cell
      promise' ((w.handled p.request f
        ((w.servers f.sent.host).handle f.sent.request env)).net p.request) := by
  rw [hf] at h
  obtain ⟨⟨hclient, hsent, hcell⟩, -⟩ := h
  have hhandle : (w.servers f.sent.host).handle f.sent.request env =
      (w.servers (cfg.host path)).ftcRpcHandler (transferIn a fd count offset) env := by
    rw [hsent]
    rfl
  rw [hhandle]
  cases hr : (w.servers (cfg.host path)).ftcRpcHandler (transferIn a fd count offset) env with
  | aborted e =>
    simp only [handled, setServer, hf]
    exact ⟨⟨hclient, hsent, hcell⟩, by rw [hst]; trivial⟩
  | responded srv out =>
    simp only [handled, setServer, setFlight, noteServed_net, PMap.insert_apply, ↓reduceIte]
    obtain rfl := Server.ftcRpcHandler_refuses hr
    exact ⟨⟨hclient, hsent, hcell⟩, .inl (by omega)⟩
  | pushing srv bytes =>
    simp only [handled, setServer, setFlight, PMap.insert_apply, ↓reduceIte]
    have hlen := Server.ftcRpcHandler_fits hr
    rw [(Server.transferIn_sizes a fd offset hc).2] at hlen
    exact ⟨⟨hclient, hsent, hcell⟩, hpush srv bytes hr, hlen⟩
  | silent srv =>
    have hsilent : (w.servers (cfg.host path)).handle (.baseRpc (transferIn a fd count offset))
        env = .silent srv := hr
    obtain ⟨inp, hclose⟩ := Server.handle_silent hsilent
    cases hclose

/-- A late message leaves the frame and the buffer of the call in progress as they are. -/
theorem late_held {id : ℕ} {f : Flight C} (hl : LateMisses y f.client fd w l)
    (hid : delivers l = some id) (hf : w.net id = some f) (hs : Steps cfg w l w')
    (hp : p ∈ (w.clients f.client).blocked) (hne : p.request ≠ id) {x : ℕ}
    (hx : Held y (w.clients f.client) x) :
    ((settle y w w' l).clients f.client).memory x = (w.clients f.client).memory x := by
  rw [delivered_memory hid hf hs]
  by_cases hcb : f.sent.callback = .none ∨ f.sent.callback = .seekCb
  · rw [stored_silent y _ hcb]
    rfl
  · push Not at hcb
    have hgiven : GivenUp w id f :=
      ⟨hcb.1, hcb.2, fun q hq ↦ Option.mem_unique hp hq ▸ hne⟩
    exact stores_of_spares (hl id hid f hf rfl hgiven).1 hx

/-- The push for the call in progress leaves its bytes in the buffer. -/
theorem ownPush_waits {f : Flight C} {bytes : Bytes} {buf cell : Addr}
    (hcons : Consistent y cfg w) (h : Waits cfg w c fd a path promise p)
    (hprom : ∀ k bytes, promise k bytes → promise' k bytes) (hp : p ∈ (w.clients c).blocked)
    (hf : w.net p.request = some f) (hst : f.stage = .push bytes)
    (hcb : f.sent.callback = .readCb buf cell) :
    Waits cfg (settle y w ((w.setClient f.client { w.clients f.client with
      memory := (w.clients f.client).memory.store buf bytes }).setFlight p.request
        { f with stage := .reply (Server.ftcRpcHandlerBulkCb bytes) }) (.push p.request))
      c fd a path promise' p := by
  refine ⟨h.closes, fun g hg ↦ ?_, fun buf' count offset hk hc ↦ ?_⟩
  · obtain rfl := Option.some.inj (by simpa [settle, setClient, setFlight] using hg)
    exact h.opens f hf
  · have hs := h.transfer buf' count offset hk hc
    rw [hf] at hs
    obtain ⟨⟨rfl, hsent, hcell⟩, hpush⟩ := hs
    simp only [hst] at hpush
    obtain ⟨rfl, rfl⟩ : buf = buf' ∧ cell = p.cell := by simpa [hsent, transferSent] using hcb.symm
    have hview : ((settle y w ((w.setClient f.client { w.clients f.client with
        memory := (w.clients f.client).memory.store buf bytes }).setFlight p.request
          { f with stage := .reply (Server.ftcRpcHandlerBulkCb bytes) })
        (.push p.request)).clients f.client).cells p.cell = (w.clients f.client).cells p.cell := by
      rw [hcons.view]
      simp only [settle, settleClient, writes, setClient, setFlight, Function.update_self, stores]
      exact y.view_congr fun i hi ↦ ownPush_frame hcons hp hf hst hcb _ ⟨by omega, by omega⟩
    have hnet : (settle y w ((w.setClient f.client { w.clients f.client with
        memory := (w.clients f.client).memory.store buf bytes }).setFlight p.request
          { f with stage := .reply (Server.ftcRpcHandlerBulkCb bytes) })
        (.push p.request)).net p.request =
          some { f with stage := .reply (Server.ftcRpcHandlerBulkCb bytes) } := by
      simp [settle, setClient, setFlight]
    rw [hnet]
    refine ⟨⟨rfl, hsent, hview.trans hcell⟩, .inr ⟨bytes, hprom _ _ hpush.1, hpush.2, ?_, ?_⟩⟩
    · exact int32_natCast (by omega)
    · simp [settle, settleClient, writes, setClient, setFlight, stores]

/-- The reply to the call in progress fills its frame. -/
theorem ownReply_waits {f : Flight C} {out : ℤ} {cl : Client} (hcons : Consistent y cfg w)
    (h : Waits cfg w c fd a path promise p)
    (hprom : ∀ k bytes, promise k bytes → promise' k bytes) (hp : p ∈ (w.clients c).blocked)
    (hf : w.net p.request = some f) (hst : f.stage = .reply out)
    (hc : (w.clients f.client).complete out f.sent.callback = .ok cl) :
    Waits cfg (settle y w (((w.setClient f.client cl).dropFlight p.request).noteReply p.request
      f.client f.sent.callback) (.reply p.request)) c fd a path promise' p := by
  refine ⟨h.closes, fun g hg ↦ ?_, fun buf count offset hk hcount ↦ ?_⟩
  · simp [settle, setClient, dropFlight] at hg
  · have hs := h.transfer buf count offset hk hcount
    rw [hf] at hs
    obtain ⟨⟨rfl, hsent, -⟩, hout⟩ := hs
    simp only [hst] at hout
    have hcb : f.sent.callback = .readCb buf p.cell := by rw [hsent, transferSent]
    have hrange := hcons.replies.int p.request f hf buf p.cell hcb out hst
    have hstep : Steps cfg w (.reply p.request) _ := .reply p.request f out cl hf hst hc
    have hmem := delivered_memory (y := y) (l := .reply p.request) rfl hf hstep
    simp only [stored, hst, hcb] at hmem
    have hnet : (settle y w (((w.setClient f.client cl).dropFlight p.request).noteReply p.request
        f.client f.sent.callback) (.reply p.request)).net p.request = none := by
      simp [settle, setClient, dropFlight]
    rw [hnet]
    refine ⟨out, ?_, hout.congr (hprom p.call) (load_congr fun i hi ↦ ?_)⟩
    · have hview := y.view_readAnswer (w.clients f.client).memory (w.clients f.client).memory buf
        p.cell out (by omega) (by omega)
      rw [hcb, ← hview, ← hmem]
      rfl
    · rw [hcb, hmem]
      refine (y.readAnswer_inFrame _ out buf p.cell).outside fun hin ↦ ?_
      exact (hcons.calls f.client p hp).clear (fd, buf, count, offset) hk _ hin
        ⟨Nat.le_add_right buf i, Nat.add_lt_add_left hi buf⟩

/-- Whatever happens, a call in progress on `fd` waits for what its server promises. -/
theorem settle_waits (hcons : Consistent y cfg w) (h : Keeps cfg w c fd a path promise)
    (hl : Undisturbed y cfg c fd a path w l) (hs : Steps cfg w l w')
    (hprom : (∀ p ∈ (w.clients c).blocked, ∀ env, l ≠ .serve p.request env) →
      ∀ k bytes, promise k bytes → promise' k bytes)
    (hserve : Serves cfg w c fd a path promise' l) (hp : p ∈ (w'.clients c).blocked) :
    Waits cfg (settle y w w' l) c fd a path promise' p := by
  have hsame (hold : p ∈ (w.clients c).blocked) (hne : ∀ env, l ≠ .serve p.request env) :
      ∀ k bytes, promise k bytes → promise' k bytes :=
    hprom fun q hq ↦ Option.mem_unique hold hq ▸ hne
  cases steps_pends hs hp with
  | blocks k cell cl s w' he hstart hcb hnext hnet hcl =>
    subst he
    exact block_waits h.opened.client (fun he ↦ hl.1.1 (c, k) rfl (by rw [he])) hstart hnet hcl
  | aside l w' hl' hne hold hnext hnet hcl =>
    refine (h.waits p hold).kept (hcons.view c) rfl hold (hnet (hcons.calls c p hold).issued)
      (hsame hold hne) fun x _ ↦ ?_
    simp [settle, settleClient, writes_aside hl', hcl, stores]
  | served env f hold hf hst =>
    have hw := h.waits p hold
    refine ⟨hw.closes, fun g hg j ↦ ?_, fun buf count offset hk hc ↦ ?_⟩
    · rcases steps_flight hs hg with ⟨g', hg', -, hsent⟩ | ⟨hid, -⟩
      · rw [hsent]
        exact hw.opens g' hg' j
      · exact absurd hid (hcons.calls c p hold).issued.ne
    · have hstands := serve_stands hc hf hst
        (hserve p hold env rfl buf count offset hk hc) (hw.transfer buf count offset hk hc)
      have hm : ((settle y w (w.handled p.request f ((w.servers f.sent.host).handle f.sent.request
          env)) (.serve p.request env)).clients c).memory = (w.clients c).memory := by
        simp [settle, settleClient, writes, handled_clients, stores]
      refine hstands.frame (fun _ ↦ id) ?_ (by rw [hm])
      rw [hcons.view c, ← hm]
      rfl
  | pushed id f bytes buf cell hold hf hst hcb =>
    have hprom' := hsame hold (by simp)
    by_cases hid : p.request = id
    · subst hid
      exact ownPush_waits hcons (h.waits p hold) hprom' hold hf hst hcb
    · refine (h.waits p hold).kept (hcons.view c) rfl hold
        (by simp [settle, setClient, setFlight, hid]) hprom' fun x hx ↦ ?_
      by_cases hc : c = f.client
      · subst hc
        exact late_held hl.2 rfl hf hs hold hid hx
      · simp [settle, settleClient, writes, setClient, setFlight, hc, stores]
  | replied id f out cl hold hf hst hcomp =>
    have hprom' := hsame hold (by simp)
    by_cases hid : p.request = id
    · subst hid
      exact ownReply_waits hcons (h.waits p hold) hprom' hold hf hst hcomp
    · refine (h.waits p hold).kept (hcons.view c) rfl hold
        (by simp [settle, setClient, dropFlight, hid]) hprom' fun x hx ↦ ?_
      by_cases hc : c = f.client
      · subst hc
        exact late_held hl.2 rfl hf hs hold hid hx
      · obtain ⟨client, sent, stage⟩ := f
        simp only at hst hc
        subst hst
        simp [settle, settleClient, writes, hf, setClient, dropFlight, hc, Ne.symm hc, stores]

theorem settle_keeps (hcons : Consistent y cfg w) (h : Keeps cfg w c fd a path promise)
    (hl : Undisturbed y cfg c fd a path w l) (hw : World.step cfg w l = some w')
    (hprom : (∀ p ∈ (w.clients c).blocked, ∀ env, l ≠ .serve p.request env) →
      ∀ k bytes, promise k bytes → promise' k bytes)
    (hserve : Serves cfg w c fd a path promise' l) :
    Keeps cfg (settle y w w' l) c fd a path promise' :=
  ⟨⟨(step_tracks h hl hw).congr rfl rfl rfl rfl,
      (steps_backs h.opened.server hl.1 (step_steps hw) :
        Backs cfg (w'.servers (cfg.host path)) a path)⟩,
    fun _ ↦ settle_waits hcons h hl (step_steps hw) hprom hserve⟩

/-- A move of the run keeps `fd` open, and what it delivers late passes by. -/
def Permitted (y : Layout) (cfg : Config) (c : C) (fd a : Fd) (path : Path) (s : Spaces C)
    (m : Move C) : Prop :=
  ∀ l ∈ m.label, Undisturbed y cfg c fd a path s.world l

instance (y : Layout) (cfg : Config) (c : C) (fd a : Fd) (path : Path) (s : Spaces C)
    (m : Move C) : Decidable (Permitted y cfg c fd a path s m) :=
  inferInstanceAs (Decidable (∀ l ∈ m.label, Undisturbed y cfg c fd a path s.world l))

theorem transfer_starts {s : Spaces C} (h : Tracks cfg (s.world.clients c) fd a path)
    (hidle : (s.world.clients c).blocked = none) {k : Call} {buf : Addr} {count : ℕ} {offset : ℤ}
    (hk : k.transfer = some (fd, buf, count, offset)) (hbuf : buf ≠ 0) {cell : Addr}
    (hclear : s.Clear y (.call c k cell)) :
    ∃ s', s.step y cfg (.run (.call c k cell)) = some s' := by
  obtain ⟨r, hr⟩ := remoteTransfer_starts h.tracked h.known hbuf count offset cell
  have hstart : (s.world.clients c).startCall cfg k cell = some r := by
    cases k with
    | read fd' buf' count' =>
      cases hk
      simp [startCall, ftcRemoteRead, hr, Except.toOption]
    | pread fd' buf' count' offset' =>
      cases hk
      simp [startCall, ftcRemotePread, hr, Except.toOption]
    | openFile => cases hk
    | lseek => cases hk
    | close => cases hk
  exact Option.isSome_iff_exists.mp
    (by simp [Spaces.step, hclear, World.step, World.call, hidle, hstart])

theorem lseek_starts {s : Spaces C} (h : Tracks cfg (s.world.clients c) fd a path)
    (hidle : (s.world.clients c).blocked = none) (offset whence : ℤ) (cell : Addr) :
    ∃ s', s.step y cfg (.run (.call c (.lseek fd offset whence) cell)) = some s' := by
  obtain ⟨r, hr⟩ := remoteLseek_starts h.tracked h.known (int32 offset) whence
  have hclear : s.Clear y (.call c (.lseek fd offset whence) cell) := fun hk ↦ by cases hk
  exact Option.isSome_iff_exists.mp
    (by simp [Spaces.step, hclear, World.step, World.call, hidle, startCall, hr, Except.toOption])

theorem timed_returns {s : Spaces C} (hp : p ∈ (s.world.clients c).blocked)
    (ht : timed p.call = true) :
    ∃ s', s.step y cfg (.run (.giveUp c)) = some s' ∧ (s'.world.clients c).blocked = none := by
  have hp : (s.world.clients c).blocked = some p := hp
  have hstep : World.step cfg s.world (.giveUp c) = some (s.world.returned c p.call
      (({ s.world.clients c with blocked := none }.timeOut p.host).finishCall cfg p.call
        (-1))) := by
    simp only [World.step, World.giveUp, hp, Option.bind_some, ht, ↓reduceIte]
  have hclear : s.Clear y (.giveUp c) := trivial
  refine ⟨_, by simp only [Spaces.step, hclear, hstep, ↓reduceIte, Option.map_some]; rfl, ?_⟩
  simp [settle, settleClient, returned, setClient, finishCall_blocked, timeOut]

def openRun : List (Move Unit) :=
  [.run (.call () (.openFile samplePath oRdonly 3) 1000), .run (.serve 0 { opened := some 7 }),
    .run (.reply 0), .run (.wake ())]

/-- A file of four bytes has been opened as 3, and its server has opened it as 7. -/
def openedSpaces : Spaces Unit :=
  (exec (Spaces.step sampleLayout sampleConfig) (start sampleLayout sampleJob Unit) openRun).get
    (by decide +kernel)

theorem openedSpaces_reach : Reach (Spaces.step sampleLayout sampleJob.cfg) (fun _ _ ↦ True)
    (start sampleLayout sampleJob Unit) openedSpaces := by
  have hrun : exec (Spaces.step sampleLayout sampleConfig) (start sampleLayout sampleJob Unit)
      openRun = some openedSpaces := (Option.some_get _).symm
  exact .of_exec hrun (by decide +kernel)

theorem openedSpaces_opened : Opened sampleConfig openedSpaces.world () 3 7 samplePath := by
  refine ⟨⟨?_, ?_, ?_, .inl ?_⟩, samplePath, 0, [1, 2, 3, 4], ?_, ?_, ?_, ?_⟩
  · decide +kernel
  · decide +kernel
  · decide +kernel
  · decide +kernel
  · decide +kernel
  · decide +kernel
  · decide +kernel
  · unfold Settled
    decide +kernel

end FTCache.KeptOpen
