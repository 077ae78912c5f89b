import FTCache.Asserts
import FTCache.Refinement

namespace FTCache.Completion

open Runs Posix Words Replay World Client Flights Protocol Descriptors Ownership Reference
open Refinement Asserts

variable {C : Type} {job : Job}

/-- The descriptor a close request names is one its server can have opened. -/
def ClosesOpened (s : Sent) : Prop := ∀ inp, s.request = .closeRpc inp → inp.fd ≠ -1

theorem started_closesOpened {w : World C} (h : Ok job.cfg w) (ho : Owned job w) {c : C} {k : Call}
    {cell : Addr} {cl : Client} {s : Sent} (hb : (w.clients c).blocked = none)
    (hm : Mirror job.cfg w.servers (w.clients c) (reference job.cfg w c))
    (hs : Started job.cfg (w.clients c) cell k cl (some s)) : ClosesOpened s := by
  cases hs with
  | openSent => simp [ClosesOpened]
  | transferSent => simp [ClosesOpened]
  | lseekSent => simp [ClosesOpened]
  | closeSent p fd cache hp _ =>
    obtain ⟨t, ht⟩ := Option.isSome_iff_exists.mp
      ((quiet_of_unblocked (h.clients c) hb).complete fd (by simp [hp]))
    obtain ⟨d, hd, -⟩ := hm.tracked fd p t hp ht
    have hne : t ≠ -1 := by
      intro he
      subst he
      simpa using (ho.servers (job.cfg.host p)).nonneg (-1) (by simp [hd])
    rintro inp ⟨⟩
    simpa [PMap.index_of_some ht] using hne

theorem servable_of_succeeds {w : World C} (h : Ok job.cfg w) (ho : Owned job w) {id : ℕ}
    {env : Env} {f : Flight C} (hf : w.net id = some f) (hst : f.stage = .request)
    (hsync : Synced job.cfg w f.client) (hclose : ClosesOpened f.sent)
    (henv : Succeeds (w.servers f.sent.host) env f.sent.request) :
    Servable (w.servers f.sent.host) env f.sent.request := by
  by_cases hcb : f.sent.callback = .none
  · obtain ⟨inp, hreq⟩ := (h.net.kind id f hf).silent_iff.mp hcb
    have hname : names job.cfg w (.closing id) = some (f.sent.host, f.sent.path, inp.fd) := by
      simp [names, hf, closingNames, hreq]
    have hne := hclose inp hreq
    obtain ⟨-, q, n, b, hfd, -⟩ := (ho.servers f.sent.host).backed inp.fd f.sent.path
      (ho.ledger.live_of_names hname hne) hne
    rw [hreq] at henv ⊢
    exact ⟨by simp [hfd], henv.1⟩
  · obtain ⟨p, -, ha⟩ := awaiting_of_flight h hf hcb
    obtain ⟨path, hpath, hasks⟩ := ha.asks
    have hm := hsync.awaiting p f ha
    rw [hst] at hm
    cases hasks with
    | opening pathname flags fd hk hs =>
      rw [hs]
      trivial
    | seeking fd s offset whence hk hr hs =>
      rw [hs]
      trivial
    | transfer fd s buf count offset hk hr hs =>
      have hin := (hsync.begun p ha.blocked).inRange
      have hcount : count < 2 ^ 31 := by
        cases hc : p.call with
        | read fd' buf' count' =>
          rw [hc] at hk hin
          simp only [Call.transfer, Option.some.injEq, Prod.mk.injEq] at hk
          exact hk.2.2.1 ▸ hin.2
        | pread fd' buf' count' offset' =>
          rw [hc] at hk hin
          simp only [Call.transfer, Option.some.injEq, Prod.mk.injEq] at hk
          exact hk.2.2.1 ▸ hin.1.2
        | openFile => simp [hc, Call.transfer] at hk
        | lseek => simp [hc, Call.transfer] at hk
        | close => simp [hc, Call.transfer] at hk
      rw [Call.fd_of_transfer hk] at hpath
      obtain ⟨q, n, b, hfd, hb, -, -⟩ := entry_stands ho hm hpath hr
      rw [hs] at henv ⊢
      refine ⟨⟨?_, henv.2.1⟩, fun _ ↦ .inl ?_⟩
      · simp [transferIn, int32_natCast hcount]
      · simp [Server.sysRead, henv.2.2, transferIn, read_of_open hfd hb]

/-- What every state of a run without failures satisfies. -/
structure Well (job : Job) (w : World C) : Prop where
  ok : Ok job.cfg w
  owned : Owned job w
  synced : ∀ c, Synced job.cfg w c
  closes : ∀ id f, w.net id = some f → ClosesOpened f.sent
  running : ∀ host, (w.servers host).aborted = false

theorem failurefree_of_quiet {w : World C} {l : Label C} (ht : l.timesOut = false)
    (hs : l.serving = none) (hc : l.calling = none) : Failurefree job.cfg w l :=
  ⟨ht, by simp [Serving, hs], by simp [hc]⟩

theorem start_well (job : Job) (C : Type) : Well job (job.start C) :=
  ⟨start_ok job C, start_owned job, start_synced job, fun id f hf ↦ by simp [Job.start] at hf,
    fun _ ↦ rfl⟩

variable [DecidableEq C]

theorem well_step {w w' : World C} {l : Label C} (hw : Well job w) (hl : Failurefree job.cfg w l)
    (hs : World.step job.cfg w l = some w') : Well job w' := by
  have hsteps := step_steps hs
  have hok' := steps_ok hw.ok hl.1 hsteps
  refine ⟨hok', steps_owned hw.ok hw.owned hl.1 hsteps,
    steps_synced hw.ok hok' hw.owned hl hw.synced hsteps, ?_, ?_⟩
  · exact steps_sent hw.closes hsteps fun c k cell cl s hb hstart ↦
      started_closesOpened hw.ok hw.owned hb ((hw.synced c).idle hb) hstart
  · refine steps_running hw.ok.net hw.running (fun x hx f hf ↦ ?_) hsteps
    exact servable_of_succeeds hw.ok hw.owned hf (steps_serving hsteps hx hf) (hw.synced _)
      (hw.closes x.1 f hf) (hl.2.1 x hx f hf)

theorem reach_well {w : World C}
    (h : Reach (World.step job.cfg) (Failurefree job.cfg) (job.start C) w) : Well job w :=
  h.invariant (Well job) (start_well job C) fun _ _ _ hw hl hs ↦ well_step hw hl hs

/-- Client `c`, blocked in `p`, can be brought to return with further steps. -/
def CanReturn (job : Job) (w : World C) (c : C) (p : Pending) : Prop :=
  ∃ w' r, Reach (World.step job.cfg) (Failurefree job.cfg) w w' ∧
    (w'.clients c).blocked = none ∧ w'.hist.trace c = w.hist.trace c ++ [(p.call, r)]

theorem CanReturn.of_step {w w' : World C} {c : C} {p : Pending} {l : Label C}
    (hl : Failurefree job.cfg w l) (hs : World.step job.cfg w l = some w')
    (htrace : w'.hist.trace = w.hist.trace) (h : CanReturn job w' c p) : CanReturn job w c p := by
  obtain ⟨v, r, hv, hb, ht⟩ := h
  exact ⟨v, r, (Reach.refl.tail hl hs).trans hv, hb, by rw [ht, htrace]⟩

theorem canReturn_of_replied {w : World C} {c : C} {p : Pending}
    (hb : (w.clients c).blocked = some p) (hr : (w.clients c).replied p = true) :
    CanReturn job w c p := by
  have hs : World.step job.cfg w (.wake c) = some (w.returned c p.call
      ({ w.clients c with blocked := none }.finishCall job.cfg p.call
        ((w.clients c).remoteValue p))) := by
    simp [World.step, World.wake, hb, hr]
  refine ⟨_, _, Reach.refl.tail (failurefree_of_quiet rfl rfl rfl) hs, ?_,
    by simp [returned, setClient]; rfl⟩
  simp [returned, setClient, finishCall_blocked]

theorem canReturn_of_reply {w : World C} (hw : Well job w) {c : C} {p : Pending} {f : Flight C}
    (ha : Awaiting job.cfg w.net c (w.clients c) p f) {out : ℤ} (hst : f.stage = .reply out) :
    CanReturn job w c p := by
  obtain ⟨hf, rfl, hcb⟩ := ha.waited
  obtain ⟨cl, hc⟩ : ∃ cl, (w.clients f.client).complete out f.sent.callback = .ok cl := by
    cases f.sent.callback <;> exact ⟨_, rfl⟩
  obtain ⟨w', hs, hw'⟩ : ∃ w', World.step job.cfg w (.reply p.request) = some w' ∧
      w' = ((w.setClient f.client cl).dropFlight p.request).noteReply p.request f.client
        f.sent.callback := by
    refine ⟨_, ?_, rfl⟩
    simp only [World.step, World.reply, hf, Option.bind_some, hst, hc]
    rfl
  have hl : Failurefree job.cfg w (.reply p.request) := failurefree_of_quiet rfl rfl rfl
  obtain ⟨-, hblocked, -⟩ := complete_mirror ha ((hw.synced f.client).begun p ha.blocked) hst
    ((hw.synced f.client).awaiting p f ha) hc
  have hb : (w'.clients f.client).blocked = some p := by
    rw [hw']
    simp [setClient, dropFlight, hblocked, ha.blocked]
  refine .of_step hl hs (by simp [hw', setClient, dropFlight]) (canReturn_of_replied hb ?_)
  rcases ((well_step hw hl hs).ok.clients f.client).status with hq | ⟨q, g, hg⟩
  · exact (hq.answered p hb).1
  · obtain rfl : p = q := Option.some.inj (hb.symm.trans hg.blocked)
    simpa [hw', setClient, dropFlight] using hg.waited.1

theorem canReturn_of_push {w : World C} (hw : Well job w) {c : C} {p : Pending} {f : Flight C}
    (ha : Awaiting job.cfg w.net c (w.clients c) p f) {bytes : Bytes}
    (hst : f.stage = .push bytes) (hopen : ∀ fd, ¬opens p.call fd) : CanReturn job w c p := by
  obtain ⟨hf, rfl, hcb⟩ := ha.waited
  have hstands := (hw.synced f.client).awaiting p f ha
  rw [hst] at hstands
  obtain ⟨path, -, hasks⟩ := ha.asks
  cases hasks with
  | opening _ _ fd hk => exact absurd (by simp [hk, opens]) (hopen fd)
  | seeking fd s offset whence hk hr hs =>
    -- the answer to a seek is never a push
    simpa [hk, Call.transfer] using hstands.2.2.2
  | transfer fd s buf count offset hk hr hs =>
    obtain ⟨w', hs', hw'⟩ : ∃ w', World.step job.cfg w (.push p.request) = some w' ∧
        w' = (w.setClient f.client { w.clients f.client with
          memory := (w.clients f.client).memory.store buf bytes }).setFlight p.request
            { f with stage := .reply (Server.ftcRpcHandlerBulkCb bytes) } := by
      refine ⟨_, ?_, rfl⟩
      simp only [World.step, World.push, hf, Option.bind_some, hst, hs]
    have hl : Failurefree job.cfg w (.push p.request) := failurefree_of_quiet rfl rfl rfl
    have hwell := well_step hw hl hs'
    have hb : (w'.clients f.client).blocked = some p := by
      simp [hw', setClient, setFlight, ha.blocked]
    refine .of_step hl hs' (by simp [hw', setClient, setFlight])
      (canReturn_of_reply (f := { f with stage := .reply (Server.ftcRpcHandlerBulkCb bytes) })
        hwell (still_awaiting hwell.ok hb ⟨?_, rfl, hcb⟩) rfl)
    simp [hw', setFlight]

theorem canReturn_of_request {w : World C} (hw : Well job w) {c : C} {p : Pending} {f : Flight C}
    (ha : Awaiting job.cfg w.net c (w.clients c) p f) (hst : f.stage = .request)
    (hopen : ∀ fd, ¬opens p.call fd) : CanReturn job w c p := by
  obtain ⟨hf, rfl, hcb⟩ := ha.waited
  have hs : World.step job.cfg w (.serve p.request {}) = some (w.handled p.request f
      ((w.servers f.sent.host).handle f.sent.request {})) := by
    simp [World.step, World.serve, hf, hst, hw.running]
  have hl : Failurefree job.cfg w (.serve p.request {}) := by
    refine ⟨rfl, fun x hx g hg ↦ ?_, by simp [Label.calling]⟩
    cases hx
    obtain rfl : f = g := Option.some.inj (hf.symm.trans hg)
    refine ⟨?_, rfl, rfl⟩
    obtain ⟨path, -, hasks⟩ := ha.asks
    cases hasks with
    | opening _ _ fd hk => exact absurd (by simp [hk, opens]) (hopen fd)
    | transfer _ _ _ _ _ _ _ hs => simp [hs, Leaks.OpensAndCloses]
    | seeking _ _ _ _ _ _ hs => simp [hs, Leaks.OpensAndCloses]
  obtain ⟨stage, hne, hnet, -⟩ := serve_own hw.ok hw.owned hf hst ha (hw.synced _)
    (hl.2.1 _ rfl f hf) rfl
  have hw' := well_step hw hl hs
  have ha' := still_awaiting hw'.ok (by rw [handled_clients]; exact ha.blocked) ⟨hnet, rfl, hcb⟩
  refine .of_step hl hs (handled_trace ..) ?_
  cases stage with
  | request => exact absurd rfl hne
  | push bytes => exact canReturn_of_push hw' ha' rfl hopen
  | reply out => exact canReturn_of_reply hw' ha' rfl

/-- In runs without failures every client gets, call by call, the values and
bytes it would get from its own file system, and a blocked transfer or seek can
always go on to return. -/
theorem failurefree_runs_refine_posix (job : Job) (w : World C)
    (h : Reach (World.step job.cfg) (Failurefree job.cfg) (job.start C) w) (c : C) :
    Agrees (posix job.cfg) (fun _ ↦ none) (w.hist.trace c) ∧
      ∀ p, (w.clients c).blocked = some p → (∀ fd, ¬opens p.call fd) → CanReturn job w c p := by
  have hw := reach_well h
  refine ⟨(hw.synced c).agrees, fun p hb hopen ↦ ?_⟩
  rcases (hw.ok.clients c).status with hq | ⟨q, f, ha⟩
  · exact canReturn_of_replied hb (hq.answered p hb).1
  · obtain rfl : p = q := Option.some.inj (hb.symm.trans ha.blocked)
    cases hst : f.stage with
    | request => exact canReturn_of_request hw ha hst hopen
    | push bytes => exact canReturn_of_push hw ha hst hopen
    | reply out => exact canReturn_of_reply hw ha hst

/-- A file is opened and read to the end while another client has it open. -/
theorem failurefree_runs_refine_posix_read :
    ∃ w : World Bool, (Call.read 3 64 4, ⟨4, [1, 2, 3, 4]⟩) ∈ w.hist.trace true ∧
      Agrees (posix sampleConfig) (fun _ ↦ none) (w.hist.trace true) := by
  obtain ⟨w, hreach, hread⟩ : ∃ w, Reach (World.step sampleJob.cfg) (Failurefree sampleJob.cfg)
      (sampleJob.start Bool) w ∧
      (Call.read 3 64 4, ⟨4, [1, 2, 3, 4]⟩) ∈ w.hist.trace true :=
    Reach.exists_of_exec [.call true (.openFile samplePath 0 3) 8,
      .call false (.openFile samplePath 0 3) 8, .serve 1 { opened := some 6 },
      .serve 0 { opened := some 7 }, .reply 0, .wake true, .call true (.read 3 64 4) 8,
      .serve 2 {}, .push 2, .reply 1, .reply 2, .wake true] (by decide +kernel)
      (by decide +kernel)
  exact ⟨w, hread, (failurefree_runs_refine_posix sampleJob w hreach true).1⟩

end FTCache.Completion
