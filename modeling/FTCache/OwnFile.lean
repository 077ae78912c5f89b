import FTCache.Handlers
import FTCache.Ownership

namespace FTCache.OwnFile

open Runs Posix Words World Client Server Flights Protocol Descriptors Ownership

variable {C : Type} {job : Job}

/-- A sequential read is answered from `accessfd`, or the retry does not find
another descriptor under the client's number. -/
def OwnRead (srv : Server) (env : Env) : Request → Prop
  | .baseRpc inp => inp.offset = -1 →
      (srv.sysRead env.firstRead inp.accessfd (size64 inp.inputVal)).1.isSome ∨
        inp.localfd = inp.accessfd ∨
        (srv.sysRead env.secondRead inp.localfd (size64 inp.inputVal)).1 = none
  | _ => True

instance (srv : Server) (env : Env) : (r : Request) → Decidable (OwnRead srv env r)
  | .baseRpc inp => inferInstanceAs (Decidable (inp.offset = -1 →
      (srv.sysRead env.firstRead inp.accessfd (size64 inp.inputVal)).1.isSome ∨
        inp.localfd = inp.accessfd ∨
        (srv.sysRead env.secondRead inp.localfd (size64 inp.inputVal)).1 = none))
  | .openRpc _ => isTrue trivial
  | .seekRpc _ => isTrue trivial
  | .closeRpc _ => isTrue trivial

/-- The bytes a read request asks for, in the file the client has opened. -/
def OwnBytes (cfg : Config) (w : World C) (f : Flight C) (inp : RpcIn) (bytes : Bytes) : Prop :=
  ∃ path b d, ((w.clients f.client).kernel inp.localfd).map Description.file = some path ∧
    (w.clients f.client).fdRedirMap inp.localfd = some inp.accessfd ∧
    cfg.files path = some b ∧ (w.servers f.sent.host).fds inp.accessfd = some d ∧
    bytes = slice b (if inp.offset = -1 then d.pos else inp.offset.toNat) (size64 inp.inputVal)

/-- A read request is answered with the client's own bytes or with a negative
value, and moves no descriptor but its own. -/
def ServesOwn (cfg : Config) (w : World C) (l : Label C) : Prop :=
  ∀ x ∈ l.serving, ∀ f ∈ w.net x.1, f.stage = .request → ∀ inp, f.sent.request = .baseRpc inp →
    let srv := w.servers f.sent.host
    let r := srv.ftcRpcHandler inp x.2
    (∀ s bytes, r = .pushing s bytes → OwnBytes cfg w f inp bytes) ∧
    (∀ s out, r = .responded s out → out < 0) ∧
    ∀ j ≠ inp.accessfd, (r.after srv).fds j = srv.fds j

section Handler

variable {srv : Server} {inp : RpcIn} {env : Env}

/-- Under `OwnRead` the sequential branch fails or is one read of `accessfd`. -/
theorem readSequential_own (h : OwnRead srv env (.baseRpc inp)) (ho : inp.offset = -1) :
    srv.readSequential inp env = (none, srv.fds) ∨
      ∃ ok, srv.readSequential inp env = srv.sysRead ok inp.accessfd (size64 inp.inputVal) := by
  unfold Server.readSequential
  split
  case h_1 bs fds he => exact .inr ⟨env.firstRead, he.symm⟩
  case h_2 fds he =>
    rcases h ho with hfirst | heq | hsecond
    · simp [he] at hfirst
    · exact .inr ⟨env.secondRead, by rw [heq]⟩
    · exact .inl (Prod.ext hsecond (sysRead_failed hsecond))

theorem ftcRpcHandler_own (h : OwnRead srv env (.baseRpc inp)) {b : Bytes}
    (hopen : ∀ d, srv.fds inp.accessfd = some d → srv.files d.file = some b) :
    (∀ s bytes, srv.ftcRpcHandler inp env = .pushing s bytes →
      ∃ d, srv.fds inp.accessfd = some d ∧ bytes =
        slice b (if inp.offset = -1 then d.pos else inp.offset.toNat) (size64 inp.inputVal)) ∧
    (∀ s out, srv.ftcRpcHandler inp env = .responded s out → out < 0) ∧
    ∀ j ≠ inp.accessfd, ((srv.ftcRpcHandler inp env).after srv).fds j = srv.fds j := by
  unfold Server.ftcRpcHandler
  split
  case isFalse => exact ⟨by simp, by simp, fun _ _ ↦ rfl⟩
  case isTrue hg =>
    split
    case isTrue ho =>
      refine ⟨fun s bytes hp ↦ ?_, fun s out hr ↦ (startTransfer_not_responded _ _ _ _ hr).elim,
        fun j hj ↦ startTransfer_fds ?_⟩
      · have hbytes := startTransfer_pushing hg.2 hp
        rcases readSequential_own h ho with he | ⟨ok, he⟩
        · simp [he] at hbytes
        · cases hd : srv.fds inp.accessfd with
          | none => simp [he, Server.sysRead, read_closed hd] at hbytes
          | some d =>
            rcases sysRead_open hd (hopen d hd) ok (size64 inp.inputVal) with hs | hs
            · simp [he, hs] at hbytes
            · exact ⟨d, rfl, by simpa [he, hs, ho, eq_comm] using hbytes⟩
      · rcases readSequential_own h ho with he | ⟨ok, he⟩
        · rw [he]
        · rw [he]
          exact sysRead_frame ok _ _ hj
    case isFalse ho =>
      split
      case h_1 => exact ⟨by simp, by simp, fun _ _ ↦ rfl⟩
      case h_2 bs hbs =>
        refine ⟨fun s bytes hp ↦ ?_, fun s out hr ↦ (startTransfer_not_responded _ _ _ _ hr).elim,
          fun j hj ↦ startTransfer_fds rfl⟩
        obtain rfl : bs = bytes := Option.some.inj (startTransfer_pushing hg.2 hp)
        unfold Server.sysPread pread content at hbs
        split at hbs
        case isFalse => cases hbs
        case isTrue =>
          split at hbs
          case isTrue => cases hbs
          case isFalse =>
            obtain ⟨c, hc, rfl⟩ := Option.map_eq_some_iff.mp hbs
            obtain ⟨d, hd, hfile⟩ := Option.bind_eq_some_iff.mp hc
            obtain rfl : c = b := Option.some.inj (hfile.symm.trans (hopen d hd))
            exact ⟨d, hd, by simp⟩

end Handler

/-- A read request carries the server descriptor of the local descriptor it names. -/
theorem read_entry {w : World C} (h : Ok job.cfg w) {id : ℕ} {f : Flight C} {inp : RpcIn}
    (hf : w.net id = some f) (hreq : f.sent.request = .baseRpc inp) :
    ∃ path, (w.clients f.client).fdMap inp.localfd = some path ∧
      (w.clients f.client).fdRedirMap inp.localfd = some inp.accessfd ∧
      f.sent.host = job.cfg.host path := by
  have hk := h.net.kind id f hf
  have hcb : f.sent.callback ≠ .none := fun hn ↦ by
    obtain ⟨_, hc⟩ := hk.silent_iff.mp hn
    simp [hreq] at hc
  obtain ⟨p, -, ha⟩ := awaiting_of_flight h hf hcb
  obtain ⟨path, hpath, hasks⟩ := ha.asks
  cases hasks with
  | opening pathname flags fd hk hs => simp [hs] at hreq
  | seeking fd s offset whence hk hr hs => simp [hs] at hreq
  | transfer fd s buf count offset hk hr hs =>
    rw [hs] at hreq ⊢
    cases hreq
    exact ⟨path, Call.fd_of_transfer hk ▸ hpath, hr, rfl⟩

theorem entry_backed {w : World C} (ho : Owned job w) {c : C} {fd s : Fd} {path : Path}
    (hm : (w.clients c).fdMap fd = some path) (hr : (w.clients c).fdRedirMap fd = some s)
    (hs : s ≠ -1) : Backs job.cfg (w.servers (job.cfg.host path)) s path := by
  have hname : names job.cfg w (.entry c fd) = some (job.cfg.host path, path, s) :=
    entryNames_eq_some.mpr ⟨hm, hr, rfl⟩
  exact ((ho.servers _).backed s path (ho.ledger.live_of_names hname hs) hs).2

variable [DecidableEq C]

/-- In runs without timeouts, as long as no retry finds another client's
descriptor, reads are served from the requester's own file and position. -/
theorem reads_served_from_own_file (job : Job) (w : World C) (l : Label C)
    (h : Reach (World.step job.cfg) (fun w l ↦ Patient w l ∧ Serving OwnRead w l)
      (job.start C) w) (hl : Serving OwnRead w l) : ServesOwn job.cfg w l := by
  obtain ⟨hok, ho⟩ := reach_owned (h.mono fun _ _ ↦ And.left)
  intro x hx f hf hst inp hreq
  obtain ⟨path, hmap, hredir, hhost⟩ := read_entry hok hf hreq
  have hown : OwnRead (w.servers f.sent.host) x.2 (.baseRpc inp) := hreq ▸ hl x hx f hf
  obtain ⟨htracked, hsome⟩ := (hok.clients f.client).tracked _ _ hmap
  obtain ⟨b, hb⟩ := Option.isSome_iff_exists.mp hsome
  have hopen : ∀ d, (w.servers f.sent.host).fds inp.accessfd = some d →
      (w.servers f.sent.host).files d.file = some b := by
    intro d hd
    have hne : inp.accessfd ≠ -1 := fun he ↦ by
      have hnn := (ho.servers f.sent.host).nonneg inp.accessfd (by simp [hd])
      simp [he] at hnn
    obtain ⟨q, n, c, hfd, hq, hc, -⟩ := entry_backed ho hmap hredir hne
    rw [← hhost, hd] at hfd
    obtain rfl := Option.some.inj hfd
    obtain rfl : b = c := Option.some.inj (hb.symm.trans hc)
    rwa [hhost]
  obtain ⟨hpush, hresp, hframe⟩ := ftcRpcHandler_own hown hopen
  refine ⟨fun s bytes hp ↦ ?_, hresp, hframe⟩
  obtain ⟨d, hd, hbytes⟩ := hpush s bytes hp
  exact ⟨path, b, d, htracked, hredir, hb, hd, hbytes⟩

/-- A client opens a file and reads it. -/
theorem reads_served_from_own_file_once :
    ∃ w : World Unit, ∃ f ∈ w.net 1, OwnBytes sampleConfig w f ⟨4, 4, 7, 3, -1⟩ [1, 2, 3, 4] := by
  obtain ⟨w, hreach, hl, f, hf, hst, hreq, hbytes⟩ : ∃ w, Reach (World.step sampleJob.cfg)
      (fun w l ↦ Patient w l ∧ Serving OwnRead w l) (sampleJob.start Unit) w ∧
      Serving OwnRead w (.serve 1 {}) ∧ ∃ f ∈ w.net 1, f.stage = .request ∧
        f.sent.request = .baseRpc ⟨4, 4, 7, 3, -1⟩ ∧
        ((w.servers f.sent.host).ftcRpcHandler ⟨4, 4, 7, 3, -1⟩ {}).pushed = some [1, 2, 3, 4] :=
    Reach.exists_of_exec [.call () (.openFile samplePath 0 3) 8, .serve 0 { opened := some 7 },
      .reply 0, .wake (), .call () (.read 3 64 4) 8] (by decide +kernel) (by decide +kernel)
  obtain ⟨srv, hpush⟩ := Handled.pushed_eq_some.mp hbytes
  exact ⟨w, f, hf, (reads_served_from_own_file sampleJob w _ hreach hl _ rfl f hf hst _ hreq).1
    srv _ hpush⟩

/-- Client `true` has its file open as 3 at the server; client `false` opens
another file as 3 locally, which the server cannot open, and reads it. -/
def retryRun : List (Label Bool) :=
  [.call true (.openFile samplePath 0 4) 8, .serve 0 { opened := some 3 }, .reply 0, .wake true,
    .call false (.openFile otherPath 0 3) 8, .serve 1 {}, .reply 1, .wake false,
    .call false (.read 3 64 4) 8]

/-- The read of client `false` moves the descriptor of client `true`. -/
theorem reads_not_served_from_own_file :
    ¬∀ (w : World Bool) (l : Label Bool),
      Reach (World.step sampleJob.cfg) Patient (sampleJob.start Bool) w → Patient w l →
      ServesOwn sampleJob.cfg w l := by
  intro h
  obtain ⟨w, hreach, f, hf, hst, hreq, hmoved⟩ : ∃ w, Reach (World.step sampleJob.cfg) Patient
      (sampleJob.start Bool) w ∧ ∃ f ∈ w.net 2, f.stage = .request ∧
        f.sent.request = .baseRpc ⟨4, 4, -1, 3, -1⟩ ∧
        ((((w.servers f.sent.host).ftcRpcHandler ⟨4, 4, -1, 3, -1⟩ {}).after
          (w.servers f.sent.host)).fds 3).map Description.pos ≠
            ((w.servers f.sent.host).fds 3).map Description.pos :=
    Reach.exists_of_exec retryRun (by decide +kernel) (by decide +kernel)
  have hframe := (h w (.serve 2 {}) hreach rfl _ rfl f hf hst _ hreq).2.2 3 (by decide)
  exact hmoved (congrArg _ hframe)

end FTCache.OwnFile
