import FTCache.RefinementServe

namespace FTCache.Refinement

open Runs Posix Words Replay World Client Flights Protocol Ownership Reference LocalCalls

variable {C : Type} {job : Job}

theorem synced_of_client {w w' : World C} (c₀ : C) (hsync : ∀ c, Synced job.cfg w c)
    (hservers : w'.servers = w.servers)
    (hclients : ∀ c, c ≠ c₀ → w'.clients c = w.clients c)
    (htrace : ∀ c, c ≠ c₀ → w'.hist.trace c = w.hist.trace c)
    (hw : ∀ c, c ≠ c₀ → ∀ id f, Waited w'.net c id f ↔ Waited w.net c id f)
    (hown : Synced job.cfg w' c₀) (c : C) : Synced job.cfg w' c := by
  by_cases hc : c = c₀
  · exact hc ▸ hown
  · exact synced_frame (hsync c) (hclients c hc) (htrace c hc) (hw c hc)
      (undisturbed_of_servers hservers c)

/-- The completion callback leaves the value where the blocked call looks for it. -/
theorem complete_value {w : World C} {f : Flight C} {p : Pending} {out : ℤ} {cl : Client}
    {r : Result} (ha : Awaiting job.cfg w.net f.client (w.clients f.client) p f)
    (hc : (w.clients f.client).complete out f.sent.callback = .ok cl)
    (hv : Value (w.clients f.client) p.call out r) : Value cl p.call (cl.remoteValue p) r := by
  obtain ⟨path, -, hasks⟩ := ha.asks
  cases hasks with
  | opening pathname flags fd hk hs => simp [hk, Value]
  | transfer fd s buf count offset hk hr hs =>
    rw [hs] at hc
    cases hc
    have hremote : ∀ cl' : Client, cl'.remoteValue p = (cl'.cells p.cell).bytesRead := by
      intro cl'
      cases hp : p.call <;> simp_all [remoteValue, Call.transfer]
    rw [value_transfer hk] at hv ⊢
    simpa [hremote] using hv
  | seeking fd s offset whence hk hr hs =>
    rw [hs] at hc
    cases hc
    simpa [hk, Value, remoteValue, ftcSeekCb] using hv

theorem complete_mirror {w : World C} {f : Flight C} {p : Pending} {out : ℤ} {cl : Client}
    {t : Table Path} (ha : Awaiting job.cfg w.net f.client (w.clients f.client) p f)
    (hbegun : Begun job.cfg (w.clients f.client) t p.call)
    (hst : f.stage = .reply out)
    (hstands : Stands job.cfg w.servers (w.clients f.client) t p f.stage)
    (hc : (w.clients f.client).complete out f.sent.callback = .ok cl) :
    cl.fdMap = (w.clients f.client).fdMap ∧ cl.blocked = (w.clients f.client).blocked ∧
      Mirror job.cfg w.servers cl (posix job.cfg t p.call).1 := by
  rw [hst] at hstands
  obtain ⟨hm, -, hopen⟩ := hstands
  obtain ⟨path, hpath, hasks⟩ := ha.asks
  cases hasks with
  | transfer fd s buf count offset hk hr hs =>
    rw [hs] at hc
    cases hc
    exact ⟨rfl, rfl, hm.congr rfl rfl rfl⟩
  | seeking fd s offset whence hk hr hs =>
    rw [hs] at hc
    cases hc
    exact ⟨rfl, rfl, hm.congr rfl rfl rfl⟩
  | opening pathname flags fd hk hs =>
    have ho : opens p.call fd := by simp [hk, opens]
    rw [hs] at hc
    cases hc
    rw [hk, Call.fd] at hpath
    obtain ⟨q, hq, he⟩ := hbegun.opened fd ho
    obtain rfl : path = q := Option.some.inj (hpath.symm.trans hq)
    refine ⟨rfl, rfl, fun j path' s hp hr ↦ ?_, hm.untracked⟩
    by_cases hj : j = fd
    · subst j
      obtain rfl : path = path' := Option.some.inj (hpath.symm.trans hp)
      obtain rfl : out = s := by simpa [setDone] using hr
      obtain ⟨q, hq⟩ := hopen fd path ho hpath
      exact ⟨⟨q, 0⟩, hq, by simp [he]⟩
    · exact hm.tracked j path' s hp (by simpa [setDone, hj] using hr)

theorem synced_returned {w w' : World C} {c : C} (h : Synced job.cfg w c) {k : Call}
    {r : Client × Result} (htrace : w'.hist.trace c = w.hist.trace c ++ [(k, r.2)])
    (hcl : w'.clients c = r.1) (hb : r.1.blocked = none)
    (hr : r.2 = (posix job.cfg (reference job.cfg w c) k).2)
    (hm : Mirror job.cfg w'.servers r.1 (posix job.cfg (reference job.cfg w c) k).1) :
    Synced job.cfg w' c := by
  refine .of_idle (by rw [hcl, hb]) ?_ ?_
  · rw [htrace]
    exact (agrees_concat _ _ _).mpr ⟨h.agrees, hr.symm⟩
  · rw [hcl, reference, htrace, after_concat]
    exact hm

variable [DecidableEq C]

theorem push_synced {w w' : World C} (h : Ok job.cfg w) (h' : Ok job.cfg w') {id : ℕ}
    {f : Flight C} {bytes : Bytes} {buf cell : Addr} (hf : w.net id = some f)
    (hst : f.stage = .push bytes) (hcb : f.sent.callback = .readCb buf cell)
    (hsync : ∀ c, Synced job.cfg w c)
    (hw : w' = (w.setClient f.client { w.clients f.client with
      memory := (w.clients f.client).memory.store buf bytes }).setFlight id
        { f with stage := .reply (Server.ftcRpcHandlerBulkCb bytes) }) (c : C) :
    Synced job.cfg w' c := by
  obtain ⟨p, rfl, ha⟩ := awaiting_of_flight h hf (by simp [hcb])
  have hcl : w'.clients f.client = { w.clients f.client with
      memory := (w.clients f.client).memory.store buf bytes } := by
    simp [hw, setClient, setFlight]
  have hnet : w'.net p.request = some { f with
      stage := .reply (Server.ftcRpcHandlerBulkCb bytes) } := by
    simp [hw, setFlight]
  have htrace : w'.hist.trace = w.hist.trace := by rw [hw]; rfl
  have hservers : w'.servers = w.servers := by rw [hw]; rfl
  have href := reference_congr job.cfg (congrFun htrace f.client)
  refine synced_of_client f.client hsync hservers
    (fun c hc ↦ by simp [hw, setClient, setFlight, hc]) (fun c _ ↦ by rw [htrace])
    (fun c hc j g ↦ ?_) ?_ c
  · rw [hw]
    refine waited_insert_other (f := { f with stage := .reply (Server.ftcRpcHandlerBulkCb bytes) })
      hc (fun g hg ↦ ?_) j g
    exact (congrArg Flight.client (Option.some.inj (hf.symm.trans hg))).symm
  · have hstands := (hsync f.client).awaiting p f ha
    rw [hst] at hstands
    obtain ⟨hm, he, hlen, -⟩ := hstands
    have hbegun := (hsync f.client).begun p ha.blocked
    refine Synced.of_awaiting (still_awaiting h' (by rw [hcl]; exact ha.blocked)
      ⟨hnet, rfl, by simp [hcb]⟩) (by rw [htrace]; exact (hsync _).agrees) ?_ ?_
    · rw [hcl, href]
      exact ⟨hbegun.inRange, hbegun.opened⟩
    · rw [hcl, href, hservers]
      obtain ⟨path, -, hasks⟩ := ha.asks
      cases hasks with
      | opening _ _ _ _ hs => simp [hs] at hcb
      | seeking _ _ _ _ _ _ hs => simp [hs] at hcb
      | transfer fd s buf' count offset hk hr hs =>
        obtain ⟨rfl, -⟩ : buf' = buf ∧ p.cell = cell := by simpa [hs] using hcb
        refine ⟨hm.congr rfl rfl rfl, (value_transfer hk).mpr ?_, fun fd _ ho ↦
          absurd ho (not_opens_of_transfer hk fd)⟩
        rw [he, Server.ftcRpcHandlerBulkCb, int32_natCast hlen]
        exact ⟨⟨rfl, by omega, by omega⟩, by simp⟩

theorem reply_synced {w w' : World C} (h : Ok job.cfg w) (h' : Ok job.cfg w') {id : ℕ}
    {f : Flight C} {out : ℤ} {cl : Client} (hf : w.net id = some f) (hst : f.stage = .reply out)
    (hc : (w.clients f.client).complete out f.sent.callback = .ok cl)
    (hsync : ∀ c, Synced job.cfg w c)
    (hw : w' = ((w.setClient f.client cl).dropFlight id).noteReply id f.client f.sent.callback)
    (c : C) : Synced job.cfg w' c := by
  have hcb : f.sent.callback ≠ .none := fun hn ↦ by
    simp [h.net.closing id f hf hn] at hst
  obtain ⟨p, rfl, ha⟩ := awaiting_of_flight h hf hcb
  have hcl : w'.clients f.client = cl := by simp [hw, setClient, dropFlight]
  have hnet : w'.net = w.net.erase p.request := by simp [hw, setClient, dropFlight]
  have htrace : w'.hist.trace = w.hist.trace := by simp [hw, setClient, dropFlight]
  have hservers : w'.servers = w.servers := by simp [hw, setClient, dropFlight]
  have href := reference_congr job.cfg (congrFun htrace f.client)
  refine synced_of_client f.client hsync hservers
    (fun c hc ↦ by simp [hw, setClient, dropFlight, hc]) (fun c _ ↦ by rw [htrace])
    (fun c hne j g ↦ ?_) ?_ c
  · rw [hnet]
    refine waited_erase (fun g' hg' ↦ ?_) j g
    obtain rfl := Option.some.inj (hf.symm.trans hg'.1)
    exact hne hg'.2.1.symm
  · have hbegun := (hsync f.client).begun p ha.blocked
    have hstands := (hsync f.client).awaiting p f ha
    obtain ⟨hmap, hblocked, hm⟩ := complete_mirror ha hbegun hst hstands hc
    have hb : (w'.clients f.client).blocked = some p := by rw [hcl, hblocked, ha.blocked]
    -- with its request gone from the network, the call must have been answered
    have hr : (w'.clients f.client).replied p = true := by
      rcases (h'.clients f.client).status with hq | ⟨q, g, hg⟩
      · exact (hq.answered p hb).1
      · obtain rfl : p = q := Option.some.inj (hb.symm.trans hg.blocked)
        simpa [hnet] using hg.waited.1
    refine Synced.of_answered hb hr (by rw [htrace]; exact (hsync _).agrees) ?_ ?_ ?_
    · rw [hcl, href]
      exact ⟨hbegun.inRange, fun fd ho ↦ hmap ▸ hbegun.opened fd ho⟩
    · rw [hcl, href, hservers]
      exact hm
    · rw [hcl, href]
      rw [hst] at hstands
      exact complete_value ha hc hstands.2.1

theorem wake_synced {w w' : World C} (h : Ok job.cfg w) {c : C} {p : Pending}
    (hb : (w.clients c).blocked = some p) (hr : (w.clients c).replied p = true)
    (hsync : ∀ c, Synced job.cfg w c)
    (hw : w' = w.returned c p.call ({ w.clients c with blocked := none }.finishCall job.cfg p.call
      ((w.clients c).remoteValue p))) (c' : C) : Synced job.cfg w' c' := by
  have hq : Quiet w.net c (w.clients c) := by
    rcases (h.clients c).status with hq | ⟨q, f, ha⟩
    · exact hq
    · obtain rfl : p = q := Option.some.inj (hb.symm.trans ha.blocked)
      simp [ha.silent] at hr
  obtain ⟨-, htracked, hk⟩ := hq.answered p hb
  obtain ⟨hm, hv⟩ := (hsync c).answered p hb hr
  have hfin : ({ w.clients c with blocked := none } : Client).finishCall job.cfg p.call
      ((w.clients c).remoteValue p) = ({ w.clients c with blocked := none },
        (posix job.cfg (reference job.cfg w c) p.call).2) := by
    refine finish_value (t := reference job.cfg w c) (hv.congr rfl) htracked hk fun fd ho ↦ ?_
    obtain ⟨q, -, he⟩ := ((hsync c).begun p hb).opened fd ho
    rw [he]
  rw [hfin] at hw
  refine synced_of_client c hsync (by rw [hw]; rfl)
    (fun j hj ↦ by simp [hw, returned, setClient, hj])
    (fun j hj ↦ by simp [hw, returned, setClient, hj])
    (fun j hj id f ↦ by rw [hw]; rfl) ?_ c'
  refine synced_returned (hsync c) (k := p.call)
    (r := ({ w.clients c with blocked := none }, (posix job.cfg (reference job.cfg w c) p.call).2))
    (by simp [hw, returned, setClient]) (by simp [hw, returned, setClient]) rfl rfl ?_
  rw [hw]
  exact hm.congr rfl rfl rfl

theorem returnNow_synced {w w' : World C} (h : Ok job.cfg w) {c : C} {k : Call} {cell : Addr}
    {cl : Client} (hb : (w.clients c).blocked = none)
    (hs : Started job.cfg (w.clients c) cell k cl none)
    (hin : InRange job.cfg (reference job.cfg w c) k) (hsync : ∀ c, Synced job.cfg w c)
    (hw : w' = (w.noteOpen c k none).returned c k (cl.finishCall job.cfg k (-1))) (c' : C) :
    Synced job.cfg w' c' := by
  obtain ⟨hr, hm⟩ := started_none_local (h.clients c) ((hsync c).idle hb) hs hin
  have hcl : cl.blocked = none := (started_none_ok (h.clients c) hb hs).2.1
  refine synced_of_client c hsync (by simp [hw, returned, setClient])
    (fun j hj ↦ by simp [hw, returned, setClient, hj])
    (fun j hj ↦ by simp [hw, returned, setClient, hj])
    (fun j hj id f ↦ by simp [hw, returned, setClient]) ?_ c'
  refine synced_returned (hsync c) (k := k) (r := cl.finishCall job.cfg k (-1))
    (by simp [hw, returned, setClient]) (by simp [hw, returned, setClient])
    (by rw [finishCall_blocked, hcl]) hr ?_
  simpa [hw, returned, setClient] using hm

theorem fire_synced {w w' : World C} (h : Ok job.cfg w) {c : C} {k : Call} {cell : Addr}
    {cl : Client} {s : Sent} (hb : (w.clients c).blocked = none)
    (hs : Started job.cfg (w.clients c) cell k cl (some s)) (hcb : s.callback = .none)
    (hsync : ∀ c, Synced job.cfg w c)
    (hw : w' = ((w.noteOpen c k (some w.next)).post c s).returned c k
      (cl.finishCall job.cfg k 0)) (c' : C) : Synced job.cfg w' c' := by
  have hwaited (j : C) := waited_insert_silent (f := ⟨c, s, .request⟩) hcb
    (h.net.fresh w.next le_rfl) j
  have hidle := (hsync c).idle hb
  refine synced_of_client c hsync (by simp [hw, returned, setClient, post, setFlight])
    (fun j hj ↦ by simp [hw, returned, setClient, post, setFlight, hj])
    (fun j hj ↦ by simp [hw, returned, setClient, post, setFlight, hj])
    (fun j hj id f ↦ by simpa [hw, returned, setClient, post, setFlight] using hwaited j id f) ?_ c'
  refine synced_returned (hsync c) (k := k) (r := cl.finishCall job.cfg k 0)
    (by simp [hw, returned, setClient, post, setFlight])
    (by simp [hw, returned, setClient, post, setFlight]) ?_ ?_ ?_
  all_goals cases hs with
    | openSent => cases hcb
    | transferSent => cases hcb
    | lseekSent => cases hcb
    | closeSent p fd cache hp ho => ?_
  · exact hb
  · obtain ⟨t, ht⟩ := Option.isSome_iff_exists.mp
      ((quiet_of_unblocked (h.clients c) hb).complete fd (by simp [hp]))
    obtain ⟨d, -, href⟩ := hidle.tracked fd p t hp ht
    obtain ⟨d', hd', -⟩ := Option.map_eq_some_iff.mp ((h.clients c).tracked fd p hp).1
    simp [finishCall, realClose, posix, href, hd']
  · refine mirror_close (by simpa [hw, returned, setClient, post, setFlight] using hidle) fd rfl
      (fun j hj ↦ ?_) rfl
    simp [finishCall, realClose, hj]

theorem block_synced {w w' : World C} (h : Ok job.cfg w) (h' : Ok job.cfg w') {c : C} {k : Call}
    {cell : Addr} {cl : Client} {s : Sent} (hb : (w.clients c).blocked = none)
    (hs : Started job.cfg (w.clients c) cell k cl (some s)) (hcb : s.callback ≠ .none)
    (hin : InRange job.cfg (reference job.cfg w c) k) (hsync : ∀ c, Synced job.cfg w c)
    (hw : w' = ((w.noteOpen c k (some w.next)).post c s).setClient c
      { cl with blocked := some ⟨k, w.next, s.host, cell⟩ }) (c' : C) : Synced job.cfg w' c' := by
  have hidle := (hsync c).idle hb
  have hcl : w'.clients c = { cl with blocked := some ⟨k, w.next, s.host, cell⟩ } := by
    simp [hw, setClient, post, setFlight]
  have htrace : w'.hist.trace = w.hist.trace := by simp [hw, setClient, post, setFlight]
  have hservers : w'.servers = w.servers := by simp [hw, setClient, post, setFlight]
  have hnet : w'.net = w.net.insert w.next ⟨c, s, .request⟩ := by
    simp [hw, setClient, post, setFlight]
  have href := reference_congr job.cfg (congrFun htrace c)
  obtain ⟨hm, hopens⟩ := started_some_local (h.clients c) hb hidle hs hcb
  refine synced_of_client c hsync hservers
    (fun j hj ↦ by simp [hw, setClient, post, setFlight, hj]) (fun j _ ↦ by rw [htrace])
    (fun j hj id f ↦ ?_) ?_ c'
  · rw [hnet]
    exact waited_insert_other hj (by simp [h.net.fresh w.next le_rfl]) id f
  refine .of_awaiting (p := ⟨k, w.next, s.host, cell⟩) (f := ⟨c, s, .request⟩)
    (still_awaiting h' (by rw [hcl]) ⟨by simp [hnet], rfl, hcb⟩)
    (by rw [htrace]; exact (hsync c).agrees) ?_ ?_
  · rw [hcl, href]
    exact ⟨hin, hopens⟩
  · rw [hcl, href, hservers]
    exact hm.congr rfl rfl rfl

theorem store_synced {w w' : World C} {c : C} {memory : Memory UInt8}
    (hb : (w.clients c).blocked = none) (hsync : ∀ c, Synced job.cfg w c)
    (hw : w' = w.setClient c { w.clients c with memory := memory }) (c' : C) :
    Synced job.cfg w' c' := by
  have hcl : w'.clients c = { w.clients c with memory := memory } := by simp [hw, setClient]
  refine synced_of_client c hsync (by rw [hw]; rfl) (fun j hj ↦ by simp [hw, setClient, hj])
    (fun _ _ ↦ by rw [hw]; rfl) (fun _ _ _ _ ↦ by rw [hw]; rfl) (.of_idle ?_ ?_ ?_) c'
  · rw [hcl]
    exact hb
  · rw [hw]
    exact (hsync c).agrees
  · rw [hcl, hw]
    exact ((hsync c).idle hb).congr rfl rfl rfl

/-- The conditions of a run without failures: nothing times out, servers
succeed, and calls stay within 32 bits. -/
def Failurefree (cfg : Config) (w : World C) (l : Label C) : Prop :=
  Patient w l ∧ Serving Succeeds w l ∧
    ∀ x ∈ l.calling, InRange cfg (reference cfg w x.1) x.2

instance (cfg : Config) (w : World C) (l : Label C) : Decidable (Failurefree cfg w l) :=
  inferInstanceAs (Decidable (_ ∧ _ ∧ _))

theorem steps_synced {w w' : World C} {l : Label C} (h : Ok job.cfg w) (h' : Ok job.cfg w')
    (ho : Owned job w) (hl : Failurefree job.cfg w l) (hsync : ∀ c, Synced job.cfg w c)
    (hs : Steps job.cfg w l w') (c : C) : Synced job.cfg w' c := by
  cases hs with
  | returnNow c₀ k cell cl hb hs =>
    exact returnNow_synced h hb hs (hl.2.2 _ rfl) hsync rfl c
  | fire c₀ k cell cl s hb hs hcb => exact fire_synced h hb hs hcb hsync rfl c
  | block c₀ k cell cl s hb hs hcb =>
    exact block_synced h h' hb hs hcb (hl.2.2 _ rfl) hsync rfl c
  | serve id env f hf hst ha => exact serve_synced h ho hf hst hsync (hl.2.1 _ rfl f hf) rfl c
  | push id f bytes buf cell hf hst hcb => exact push_synced h h' hf hst hcb hsync rfl c
  | reply id f out cl hf hst hc => exact reply_synced h h' hf hst hc hsync rfl c
  | wake c₀ p hb hr => exact wake_synced h hb hr hsync rfl c
  | giveUp c₀ p hb ht => cases hl.1
  | mover host m srv ha hm =>
    have hfds : srv.fds = (w.servers host).fds := by cases hm <;> rfl
    refine synced_frame (hsync c) rfl rfl (fun _ _ ↦ .rfl) fun o j p s d _ _ hd ↦ ?_
    by_cases hj : j = host
    · subst j
      simpa [setServer, hfds] using hd
    · simpa [setServer, hj] using hd
  | store c₀ a bytes hb =>
    exact store_synced hb hsync rfl c

omit [DecidableEq C] in
theorem start_synced (job : Job) (c : C) : Synced job.cfg (job.start C) c :=
  .of_idle rfl trivial ⟨fun _ _ _ hp ↦ by simp [Job.start] at hp, fun _ _ ↦ rfl⟩

end FTCache.Refinement
