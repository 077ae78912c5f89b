import FTCache.Handlers
import FTCache.Leaks
import FTCache.LocalCalls
import FTCache.OwnFile

namespace FTCache.Refinement

open Runs Posix Words Replay World Client Flights Protocol Descriptors Ownership OwnFile Reference
open LocalCalls Server

variable {C : Type} {job : Job}

/-- The server's own calls succeed. -/
def Succeeds (srv : Server) (env : Env) (r : Request) : Prop :=
  Leaks.OpensAndCloses srv env r ∧ env.calloc = true ∧ env.firstRead = true

instance (srv : Server) (env : Env) (r : Request) : Decidable (Succeeds srv env r) :=
  inferInstanceAs (Decidable (_ ∧ _ ∧ _))

/-- Handling a request leaves every descriptor in place that neither the request
closes nor its client's blocked call is about. -/
theorem serve_frame {w : World C} (h : Ok job.cfg w) (ho : Owned job w) {id : ℕ} {env : Env}
    {f : Flight C} (hf : w.net id = some f) (hst : f.stage = .request)
    (hsync : Synced job.cfg w f.client)
    (henv : Succeeds (w.servers f.sent.host) env f.sent.request) {o : Owner C}
    {host : Host} {path : Path} {s : Fd} (hname : names job.cfg w o = some (host, path, s))
    (hs : s ≠ -1) (hclosing : o ≠ .closing id)
    (hother : ∀ p, Awaiting job.cfg w.net f.client (w.clients f.client) p f →
      o ≠ .entry f.client p.call.fd) :
    ((w.handled id f ((w.servers f.sent.host).handle f.sent.request env)).servers host).fds s =
      (w.servers host).fds s := by
  rw [handled_servers]
  by_cases hh : host = f.sent.host
  case neg => simp [hh]
  subst hh
  simp only [Function.update_self]
  have hlive : Live w (f.sent.host, path, s) := ho.ledger.live_of_names hname hs
  -- two owners of one descriptor are the same
  have hsole {o' : Owner C} (path' : Path)
      (hname' : names job.cfg w o' = some (f.sent.host, path', s)) : o = o' := by
    have hlive' : Live w (f.sent.host, path', s) := ho.ledger.live_of_names hname' hs
    obtain rfl : path = path' := Option.some.inj (hlive.symm.trans hlive')
    exact ho.ledger.sole (f.sent.host, path, s) hs _ _ hname hname'
  by_cases hcb : f.sent.callback = .none
  · obtain ⟨inp, hreq⟩ := (h.net.kind id f hf).silent_iff.mp hcb
    rw [hreq]
    have hne : s ≠ inp.fd := by
      intro heq
      subst heq
      exact hclosing (hsole f.sent.path (by simp [names, hf, closingNames, hreq]))
    simp only [Server.handle, Server.ftcCloseRpcHandler]
    split
    · simp [Handled.after, hne]
    · rfl
  · obtain ⟨p, -, ha⟩ := awaiting_of_flight h hf hcb
    obtain ⟨path', hpath, hasks⟩ := ha.asks
    have hne {t : Fd} (hr : (w.clients f.client).fdRedirMap p.call.fd = some t)
        (hhost : f.sent.host = job.cfg.host path') : s ≠ t := by
      intro heq
      subst heq
      exact hother p ha (hsole path' (entryNames_eq_some.mpr ⟨hpath, hr, hhost.symm⟩))
    have hmirror : Mirror job.cfg w.servers (w.clients f.client)
        (reference job.cfg w f.client) := by
      have hstands := hsync.awaiting p f ha
      rwa [hst] at hstands
    cases hasks with
    | opening pathname flags fd hk hs' =>
      obtain ⟨-, q, n, b, hfd, -⟩ := (ho.servers f.sent.host).backed s path hlive hs
      rw [hs'] at hfd ⊢
      simp only [Server.handle, Server.ftcOpenRpcHandler, Handled.after]
      rcases sysOpen_cases (w.servers (job.cfg.host path')) env.opened
        ((w.servers (job.cfg.host path')).redirPath path') with he | ⟨fd', -, hfree, he⟩
      · rw [he]
      · have hsfd : s ≠ fd' := by
          intro heq
          subst heq
          simp [hfree] at hfd
        simp [he, hsfd]
    | transfer fd t buf count offset hk hr hs' =>
      rw [← Call.fd_of_transfer hk] at hr
      obtain ⟨d, hd, -⟩ := hmirror.tracked _ _ _ hpath hr
      have hst : s ≠ t := hne hr (by rw [hs'])
      obtain ⟨q, m, b, hfd, hb, -, -⟩ := entry_backed ho hpath hr (by
        intro heq
        subst heq
        simpa using (ho.servers (job.cfg.host path')).nonneg (-1) (by simp [hd]))
      rw [hs'] at henv ⊢
      have hown : OwnRead (w.servers (job.cfg.host path')) env
          (.baseRpc (transferIn t fd count offset)) := fun _ ↦ .inl (by
        simp [Server.sysRead, henv.2.2, transferIn, read_of_open hfd hb])
      refine (ftcRpcHandler_own (b := b) hown fun d' hd' ↦ ?_).2.2 s hst
      obtain rfl := Option.some.inj (hfd.symm.trans hd')
      exact hb
    | seeking fd t offset whence hk hr hs' =>
      have hst : s ≠ t := hne (by rwa [hk]) (by rw [hs'])
      rw [hs']
      exact lseek_frame t _ _ hst

/-- The owners among which a client's server descriptors are. -/
def Mine (w : World C) (c : C) : Owner C → Prop
  | .entry c' _ => c' = c
  | .reply id => ∃ f, Waited w.net c id f
  | .closing _ => False

/-- The server descriptors of client `c` stay as they are. -/
def Undisturbed (cfg : Config) (w w' : World C) (c : C) : Prop :=
  ∀ o host p s d, Mine w c o → names cfg w o = some (host, p, s) →
    (w.servers host).fds s = some d → (w'.servers host).fds s = some d

theorem undisturbed_of_servers {w w' : World C} (h : w'.servers = w.servers) (c : C) :
    Undisturbed job.cfg w w' c := by
  intro o host p s d _ _ hd
  rwa [h]

theorem Undisturbed.mirror {w w' : World C} {c : C} {t : Table Path}
    (h : Undisturbed job.cfg w w' c) (hm : Mirror job.cfg w.servers (w.clients c) t) :
    Mirror job.cfg w'.servers (w.clients c) t := by
  refine ⟨fun fd path s hp hs ↦ ?_, hm.untracked⟩
  obtain ⟨d, hd, ht⟩ := hm.tracked fd path s hp hs
  exact ⟨d, h (.entry c fd) _ path s d rfl (entryNames_eq_some.mpr ⟨hp, hs, rfl⟩) hd, ht⟩

theorem synced_frame {w w' : World C} {c : C} (h : Synced job.cfg w c)
    (hcl : w'.clients c = w.clients c) (htr : w'.hist.trace c = w.hist.trace c)
    (hw : ∀ id f, Waited w'.net c id f ↔ Waited w.net c id f)
    (hfds : Undisturbed job.cfg w w' c) : Synced job.cfg w' c := by
  have href := reference_congr job.cfg htr
  refine ⟨by rw [htr]; exact h.agrees, fun hb ↦ ?_, fun p hp ↦ ?_, fun p f ha ↦ ?_,
    fun p hp hr ↦ ?_⟩
  · rw [hcl] at hb ⊢
    rw [href]
    exact hfds.mirror (h.idle hb)
  · rw [hcl] at hp ⊢
    rw [href]
    exact h.begun p hp
  · rw [hcl] at ha ⊢
    rw [href]
    have ha' : Awaiting job.cfg w.net c (w.clients c) p f :=
      ⟨ha.blocked, (hw _ _).mp ha.waited, fun id g hg ↦ ha.only id g ((hw id g).mpr hg), ha.silent,
        ha.seek, ha.sent, ha.complete⟩
    have hstands := h.awaiting p f ha'
    cases hst : f.stage with
    | request =>
      rw [hst] at hstands
      exact hfds.mirror hstands
    | push bytes =>
      rw [hst] at hstands
      exact ⟨hfds.mirror hstands.1, hstands.2⟩
    | reply out =>
      rw [hst] at hstands
      refine ⟨hfds.mirror hstands.1, hstands.2.1, fun fd path ho hp ↦ ?_⟩
      obtain ⟨q, hq⟩ := hstands.2.2 fd path ho hp
      obtain ⟨path', hpath', hasks⟩ := ha'.asks
      refine ⟨q, hfds (.reply p.request) _ path out _ ⟨f, ha'.waited⟩ ?_ hq⟩
      cases hk : p.call with
      | openFile pathname flags j =>
        simp only [hk, opens] at ho
        subst ho
        obtain rfl : path = path' := by simpa [hk, Call.fd, hp] using hpath'
        cases hasks with
        | opening _ _ _ hk' hs =>
          simp [names, ha'.waited.1, replyNames, hs, hst]
        | transfer fd s buf count offset hk' => simp [hk, Call.transfer] at hk'
        | seeking fd s offset whence hk' => simp [hk] at hk'
      | read => simp [hk, opens] at ho
      | pread => simp [hk, opens] at ho
      | lseek => simp [hk, opens] at ho
      | close => simp [hk, opens] at ho
  · rw [hcl] at hp hr ⊢
    rw [href]
    obtain ⟨hm, hv⟩ := h.answered p hp hr
    exact ⟨hfds.mirror hm, hv⟩

theorem mirror_step {servers servers' : Host → Server} {cl : Client} {t t' : Table Path} (fd : Fd)
    (hm : Mirror job.cfg servers cl t) (htracked : (cl.fdMap fd).isSome)
    (hframe : ∀ j path s d, j ≠ fd → cl.fdMap j = some path → cl.fdRedirMap j = some s →
      (servers (job.cfg.host path)).fds s = some d → (servers' (job.cfg.host path)).fds s = some d)
    (ht : ∀ j, j ≠ fd → t' j = t j)
    (hfd : ∀ path s, cl.fdMap fd = some path → cl.fdRedirMap fd = some s →
      ∃ d, (servers' (job.cfg.host path)).fds s = some d ∧ t' fd = some ⟨path, d.pos⟩) :
    Mirror job.cfg servers' cl t' := by
  refine ⟨fun j path s hp hs ↦ ?_, fun j hp ↦ ?_⟩
  · by_cases hj : j = fd
    · subst j
      exact hfd path s hp hs
    · obtain ⟨d, hd, htj⟩ := hm.tracked j path s hp hs
      exact ⟨d, hframe j path s d hj hp hs hd, by rw [ht j hj, htj]⟩
  · have hj : j ≠ fd := by
      intro he
      subst he
      simp [hp] at htracked
    rw [ht j hj, hm.untracked j hp]

/-- A tracked descriptor that has its server descriptor stands at the same place
of the same file there and in the reference. -/
theorem entry_stands {w : World C} (ho : Owned job w) {c : C} {t : Table Path} {fd s : Fd}
    {path : Path} (hm : Mirror job.cfg w.servers (w.clients c) t)
    (hp : (w.clients c).fdMap fd = some path) (hr : (w.clients c).fdRedirMap fd = some s) :
    ∃ q n b, (w.servers (job.cfg.host path)).fds s = some ⟨q, n⟩ ∧
      (w.servers (job.cfg.host path)).files q = some b ∧ t fd = some ⟨path, n⟩ ∧
      job.cfg.files path = some b := by
  obtain ⟨d, hd, ht⟩ := hm.tracked fd path s hp hr
  have hs : s ≠ -1 := by
    intro he
    subst he
    simpa using (ho.servers (job.cfg.host path)).nonneg (-1) (by simp [hd])
  obtain ⟨q, n, b, hfd, hq, hb, -⟩ := entry_backed ho hp hr hs
  obtain rfl := Option.some.inj (hd.symm.trans hfd)
  exact ⟨q, n, b, hfd, hq, ht, hb⟩

/-- A server handles the request of a blocked call as the reference does the call. -/
theorem serve_own {w : World C} (h : Ok job.cfg w) (ho : Owned job w) {id : ℕ} {env : Env}
    {f : Flight C} (hf : w.net id = some f) (hst : f.stage = .request) {p : Pending}
    (ha : Awaiting job.cfg w.net f.client (w.clients f.client) p f)
    (hsync : Synced job.cfg w f.client)
    (henv : Succeeds (w.servers f.sent.host) env f.sent.request) {w' : World C}
    (hw : w' = w.handled id f ((w.servers f.sent.host).handle f.sent.request env)) :
    ∃ stage, stage ≠ .request ∧ w'.net id = some { f with stage := stage } ∧
      Stands job.cfg w'.servers (w.clients f.client) (reference job.cfg w f.client) p stage := by
  have hm : Mirror job.cfg w.servers (w.clients f.client) (reference job.cfg w f.client) := by
    have hstands := hsync.awaiting p f ha
    rwa [hst] at hstands
  obtain ⟨path, hpath, hasks⟩ := ha.asks
  have hbegun := hsync.begun p ha.blocked
  have hservers : w'.servers = Function.update w.servers f.sent.host
      (((w.servers f.sent.host).handle f.sent.request env).after (w.servers f.sent.host)) := by
    rw [hw, handled_servers]
  have hframe : ∀ j path s d, j ≠ p.call.fd → (w.clients f.client).fdMap j = some path →
      (w.clients f.client).fdRedirMap j = some s →
      (w.servers (job.cfg.host path)).fds s = some d →
      (w'.servers (job.cfg.host path)).fds s = some d := by
    intro j path s d hj hp hr hd
    have hs : s ≠ -1 := by
      intro heq
      subst heq
      simpa using (ho.servers (job.cfg.host path)).nonneg (-1) (by simp [hd])
    rw [hw, serve_frame h ho hf hst hsync henv (entryNames_eq_some.mpr ⟨hp, hr, rfl⟩) hs (by simp)
      (o := Owner.entry f.client j), hd]
    intro q hq
    obtain rfl : p = q := Option.some.inj (ha.blocked.symm.trans hq.blocked)
    simpa using hj
  cases hasks with
  | opening pathname flags fd hk hs =>
    rw [hk, Call.fd] at hpath hframe
    rw [hs] at hservers henv hw
    obtain ⟨q, hq, he⟩ := hbegun.opened fd (by simp [hk, opens])
    obtain rfl : path = q := Option.some.inj (hpath.symm.trans hq)
    rcases sysOpen_cases (w.servers (job.cfg.host path)) env.opened
      ((w.servers (job.cfg.host path)).redirPath path) with hsys | ⟨fd', -, -, hsys⟩
    · exact absurd (by rw [hsys]) henv.1
    have hnew : (w'.servers (job.cfg.host path)).fds fd' =
        some ⟨(w.servers (job.cfg.host path)).redirPath path, 0⟩ := by
      simp [hservers, Server.handle, Server.ftcOpenRpcHandler, Handled.after, hsys]
    refine ⟨.reply fd', by simp, ?_, ?_, by simp [Value, hk], fun fd'' path'' ho'' hp'' ↦ ?_⟩
    · simp [hw, Server.handle, Server.ftcOpenRpcHandler, handled, setServer, setFlight, hsys]
    · refine mirror_step fd hm (by simp [hpath]) hframe (fun j hj ↦ ?_)
        fun path' s hp hr ↦ ?_
      · simp [he, hj]
      · exact absurd (by simp [hk, opens]) ((ha.complete fd (by simp [hpath])).mp (by simp [hr]))
    · simp only [hk, opens] at ho''
      subst ho''
      obtain rfl : path = path'' := Option.some.inj (hpath.symm.trans hp'')
      exact ⟨_, hnew⟩
  | transfer fd s buf count offset hk hr hs =>
    rw [Call.fd_of_transfer hk] at hpath hframe
    obtain ⟨q, n, b, hfd, hb, ht, hfile⟩ := entry_stands ho hm hpath hr
    rw [hs] at hservers henv hw
    have hin := hbegun.inRange
    cases hc : p.call with
    | read fd' buf' count' =>
      obtain ⟨rfl, rfl, rfl, rfl⟩ : fd' = fd ∧ buf' = buf ∧ count' = count ∧ -1 = offset := by
        simpa [hc, Call.transfer] using hk
      rw [hc] at hin
      have hpush := ftcRpcHandler_read henv.2 fd' hfd hb hin.2
      have he : posix job.cfg (reference job.cfg w f.client) p.call =
          ((reference job.cfg w f.client).insert fd' ⟨path, n + (slice b n count').length⟩,
            ⟨(slice b n count').length, slice b n count'⟩) := by
        simp [hc, posix, read_of_open ht hfile]
      refine ⟨.push (slice b n count'), by simp, ?_, ?_, by rw [he], ?_⟩
      · simp [hw, Server.handle, hpush, handled, setServer, setFlight]
      · refine mirror_step fd' hm (by simp [hpath]) hframe (fun j hj ↦ by simp [he, hj])
          fun path' s' hp' hr' ↦ ?_
        obtain rfl : path = path' := Option.some.inj (hpath.symm.trans hp')
        obtain rfl : s = s' := Option.some.inj (hr.symm.trans hr')
        exact ⟨⟨q, n + (slice b n count').length⟩,
          by simp [hservers, Server.handle, hpush, Handled.after], by simp [he]⟩
      · exact ⟨Nat.lt_of_le_of_lt (slice_length_le ..) hin.2, by simp [hc, Call.transfer]⟩
    | pread fd' buf' count' offset' =>
      obtain ⟨rfl, rfl, rfl, rfl⟩ : fd' = fd ∧ buf' = buf ∧ count' = count ∧ offset' = offset := by
        simpa [hc, Call.transfer] using hk
      rw [hc] at hin
      have hpush := ftcRpcHandler_pread henv.2 fd' hfd hb hin.1.2 hin.2
      have he : posix job.cfg (reference job.cfg w f.client) p.call =
          (reference job.cfg w f.client,
            ⟨(slice b offset'.toNat count').length, slice b offset'.toNat count'⟩) := by
        simp [hc, posix, pread_of_open ht hfile _ hin.2]
      refine ⟨.push (slice b offset'.toNat count'), by simp, ?_, ?_, by rw [he], ?_⟩
      · simp [hw, Server.handle, hpush, handled, setServer, setFlight]
      · refine mirror_step fd' hm (by simp [hpath]) hframe (fun j hj ↦ by simp [he])
          fun path' s' hp' hr' ↦ ?_
        obtain rfl : path = path' := Option.some.inj (hpath.symm.trans hp')
        obtain rfl : s = s' := Option.some.inj (hr.symm.trans hr')
        exact ⟨⟨q, n⟩, by simp [hservers, Server.handle, hpush, Handled.after, hfd],
          by simp [he, ht]⟩
      · exact ⟨Nat.lt_of_le_of_lt (slice_length_le ..) hin.1.2, by simp [hc, Call.transfer]⟩
    | openFile => simp [hc, Call.transfer] at hk
    | lseek => simp [hc, Call.transfer] at hk
    | close => simp [hc, Call.transfer] at hk
  | seeking fd s offset whence hk hr hs =>
    rw [hk, Call.fd] at hpath hframe
    obtain ⟨q, n, b, hfd, hb, ht, hfile⟩ := entry_stands ho hm hpath hr
    rw [hs] at hservers henv hw
    have hin := hbegun.inRange
    rw [hk] at hin
    have hoff : int32 offset = offset := int32_of_range hin.2.1.1 hin.2.1.2
    rw [hoff] at hservers hw
    -- the file the server has open is as long as the client's
    obtain ⟨hout, hmoved⟩ := lseek_of_open hfd hb offset whence
    obtain ⟨hout', hmoved'⟩ := lseek_of_open ht hfile offset whence
    have hlt := hin.2.2
    rw [hout'] at hlt
    refine ⟨.reply (int32 (offsetReturned (seekTarget b.length n offset whence))), by simp,
      ?_, ?_, ?_, ?_⟩
    · simp [hw, Server.handle, Server.ftcSeekRpcHandler, handled, setServer, setFlight, hout]
    · refine mirror_step fd hm (by simp [hpath]) hframe (fun j hj ↦ ?_)
        fun path' s' hp' hr' ↦ ?_
      · simpa [hk, posix] using lseek_frame fd offset whence hj
      · obtain rfl : path = path' := Option.some.inj (hpath.symm.trans hp')
        obtain rfl : s = s' := Option.some.inj (hr.symm.trans hr')
        exact ⟨⟨q, (seekTarget b.length n offset whence).getD n⟩,
          by simp [hservers, Server.handle, Server.ftcSeekRpcHandler, Handled.after, hmoved],
          by simp [hk, posix, hmoved']⟩
    · have hge := offsetReturned_ge (seekTarget b.length n offset whence)
      simp only [hk, Value, posix, hout']
      exact int32_of_range (by omega) hlt
    · simp [hk, opens]

theorem still_awaiting {w : World C} (h : Ok job.cfg w) {c : C} {p : Pending} {f : Flight C}
    (hb : (w.clients c).blocked = some p) (hw : Waited w.net c p.request f) :
    Awaiting job.cfg w.net c (w.clients c) p f := by
  rcases (h.clients c).status with hq | ⟨q, g, ha⟩
  · exact absurd hw (hq.noFlight _ _)
  · obtain rfl : p = q := Option.some.inj (hb.symm.trans ha.blocked)
    obtain rfl : f = g := Option.some.inj (hw.1.symm.trans ha.waited.1)
    exact ha

theorem serve_synced {w w' : World C} (h : Ok job.cfg w) (ho : Owned job w) {id : ℕ} {env : Env}
    {f : Flight C} (hf : w.net id = some f) (hst : f.stage = .request)
    (hsync : ∀ c, Synced job.cfg w c)
    (henv : Succeeds (w.servers f.sent.host) env f.sent.request)
    (hw : w' = w.handled id f ((w.servers f.sent.host).handle f.sent.request env)) (c : C) :
    Synced job.cfg w' c := by
  have hclients : w'.clients = w.clients := by rw [hw, handled_clients]
  have htrace : w'.hist.trace = w.hist.trace := by rw [hw, handled_trace]
  by_cases hc : c ≠ f.client ∨ f.sent.callback = .none
  · refine synced_frame (hsync c) (by rw [hclients]) (by rw [htrace]) (fun j g ↦ ?_) ?_
    · rw [hw]
      exact waited_taken hf hc (handled_taken w id (h.net.kind id f hf) _ env) j g
    · intro o host p s d hmine hname hd
      have hs : s ≠ -1 := by
        intro he
        subst he
        simpa using (ho.servers host).nonneg (-1) (by simp [hd])
      rw [hw, serve_frame h ho hf hst (hsync _) henv hname hs, hd]
      · intro he
        subst he
        exact hmine
      · rintro q hq rfl
        rcases hc with hc | hc
        · exact hc (Eq.symm hmine)
        · exact hq.waited.2.2 hc
  · obtain ⟨hcl, hcb⟩ := not_or.mp hc
    obtain rfl : c = f.client := not_not.mp hcl
    obtain ⟨p, rfl, ha⟩ := awaiting_of_flight h hf hcb
    obtain ⟨stage, -, hnet, hstands⟩ := serve_own h ho hf hst ha (hsync _) henv hw
    have hok' : Ok job.cfg w' := hw ▸ serve_ok h hf _
    have href := reference_congr job.cfg (congrFun htrace f.client)
    refine Synced.of_awaiting (still_awaiting hok' (by rw [hclients]; exact ha.blocked)
      ⟨hnet, rfl, hcb⟩) ?_ ?_ ?_
    · rw [htrace]
      exact (hsync _).agrees
    · rw [hclients, href]
      exact (hsync _).begun p ha.blocked
    · rw [hclients, href]
      exact hstands

end FTCache.Refinement
