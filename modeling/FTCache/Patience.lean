import FTCache.Closing
import FTCache.Ownership

namespace FTCache.Patience

open Runs Posix World Client Flights Protocol Translation Closing Ownership

variable {C : Type} {cfg : Config}

/-- In runs without timeouts an open request in flight is the latest for its descriptor, the
latest one, once gone, was answered last, and what is tracked was opened by a request. -/
structure InTime (w : World C) : Prop where
  pending : ∀ id f fd cell, w.net id = some f → f.sent.callback = .openCb fd cell →
    w.hist.latestOpen f.client fd = some id
  arrived : ∀ c fd id, w.hist.latestOpen c fd = some id → w.net id = none →
    w.hist.lastReply c fd = some id
  answered : ∀ id f x, w.net id = some f → w.hist.served id = some x → f.stage = .reply x.2.2
  opened : ∀ c fd, ((w.clients c).fdMap fd).isSome → (w.hist.latestOpen c fd).isSome

section Frames

variable {w w' : World C}

theorem InTime.congr (h : InTime w) (hnet : w'.net = w.net)
    (hhist : w'.hist.latestOpen = w.hist.latestOpen ∧ w'.hist.lastReply = w.hist.lastReply ∧
      w'.hist.served = w.hist.served)
    (hmap : ∀ c, (w'.clients c).fdMap = (w.clients c).fdMap) : InTime w' := by
  obtain ⟨h₁, h₂, h₃⟩ := hhist
  refine ⟨?_, ?_, ?_, ?_⟩
  · simpa only [hnet, h₁] using h.pending
  · simpa only [hnet, h₁, h₂] using h.arrived
  · simpa only [hnet, h₃] using h.answered
  · simpa only [hmap, h₁] using h.opened

/-- A request in flight goes on to its next stage. -/
theorem InTime.setStage (h : InTime w) {id : ℕ} {f : Flight C} (hf : w.net id = some f)
    (stage : Stage) (hnet : w'.net = w.net.insert id { f with stage := stage })
    (hhist : w'.hist.latestOpen = w.hist.latestOpen ∧ w'.hist.lastReply = w.hist.lastReply)
    (hserved : ∀ j, j ≠ id → w'.hist.served j = w.hist.served j)
    (hnew : ∀ x, w'.hist.served id = some x → stage = .reply x.2.2)
    (hmap : ∀ c, (w'.clients c).fdMap = (w.clients c).fdMap) : InTime w' := by
  obtain ⟨h₁, h₂⟩ := hhist
  refine ⟨fun j g fd cell hg hcb ↦ ?_, fun c fd j hj hn ↦ ?_, fun j g x hg hx ↦ ?_, ?_⟩
  · rw [h₁]
    by_cases hji : j = id
    · subst j
      obtain rfl := Option.some.inj (by simpa [hnet] using hg)
      exact h.pending id f fd cell hf hcb
    · exact h.pending j g fd cell (by simpa [hnet, hji] using hg) hcb
  · rw [h₁] at hj
    rw [h₂]
    have hji : j ≠ id := by
      intro he
      subst he
      simp [hnet] at hn
    exact h.arrived c fd j hj (by simpa [hnet, hji] using hn)
  · by_cases hji : j = id
    · subst j
      obtain rfl := Option.some.inj (by simpa [hnet] using hg)
      exact hnew x hx
    · exact h.answered j g x (by simpa [hnet, hji] using hg) (by rwa [hserved j hji] at hx)
  · simpa only [hmap, h₁] using h.opened

/-- A request leaves the network. -/
theorem InTime.drop (h : InTime w) (id : ℕ) (hnet : w'.net = w.net.erase id)
    (hhist : w'.hist.latestOpen = w.hist.latestOpen ∧ w'.hist.served = w.hist.served)
    (hlast : ∀ c fd, w.hist.latestOpen c fd = some id → w'.hist.lastReply c fd = some id)
    (hothers : ∀ c fd j, j ≠ id → w.hist.latestOpen c fd = some j →
      w'.hist.lastReply c fd = w.hist.lastReply c fd)
    (hmap : ∀ c, (w'.clients c).fdMap = (w.clients c).fdMap) : InTime w' := by
  obtain ⟨h₁, h₃⟩ := hhist
  have hold {j : ℕ} {g : Flight C} (hg : w'.net j = some g) : w.net j = some g := by
    by_cases hji : j = id
    · simp [hnet, hji] at hg
    · simpa [hnet, hji] using hg
  refine ⟨fun j g fd cell hg hcb ↦ ?_, fun c fd j hj hn ↦ ?_, fun j g x hg hx ↦ ?_, ?_⟩
  · rw [h₁]
    exact h.pending j g fd cell (hold hg) hcb
  · rw [h₁] at hj
    by_cases hji : j = id
    · subst j
      exact hlast c fd hj
    · rw [hothers c fd j hji hj]
      exact h.arrived c fd j hj (by simpa [hnet, hji] using hn)
  · exact h.answered j g x (hold hg) (by rwa [h₃] at hx)
  · simpa only [hmap, h₁] using h.opened

end Frames

variable [DecidableEq C] {w w' : World C}

/-- What a call does to the client that makes it, to the network and to the history. -/
structure Called (cfg : Config) (w : World C) (c : C) (k : Call) (cell : Addr) (cl : Client)
    (s : Option Sent) (w' : World C) : Prop where
  unblocked : (w.clients c).blocked = none
  started : Started cfg (w.clients c) cell k cl s
  latest : w'.hist.latestOpen = (w.noteOpen c k (s.map fun _ ↦ w.next)).hist.latestOpen
  last : w'.hist.lastReply = w.hist.lastReply
  served : w'.hist.served = w.hist.served
  net : w'.net = s.elim w.net fun x ↦ w.net.insert w.next ⟨c, x, .request⟩
  fdMap : (w'.clients c).fdMap = cl.fdMap
  others : ∀ c', c' ≠ c → w'.clients c' = w.clients c'

theorem steps_called {c : C} {k : Call} {cell : Addr} (hs : Steps cfg w (.call c k cell) w') :
    ∃ cl s, Called cfg w c k cell cl s w' := by
  cases hs with
  | returnNow _ _ _ cl hb hs =>
    refine ⟨cl, none, hb, hs, rfl, ?_, ?_, ?_, ?_, fun c' hc ↦ ?_⟩
    · cases k <;> rfl
    · cases k <;> rfl
    · simp [returned, setClient]
    · simp [returned, setClient, (finishCall_maps cfg cl k (-1)).1]
    · simp [returned, setClient, hc]
  | fire _ _ _ cl s hb hs hcb =>
    refine ⟨cl, some s, hb, hs, rfl, ?_, ?_, ?_, ?_, fun c' hc ↦ ?_⟩
    · cases k <;> rfl
    · cases k <;> rfl
    · simp [returned, setClient, post, setFlight]
    · simp [returned, setClient, (finishCall_maps cfg cl k 0).1]
    · simp [returned, setClient, post, setFlight, hc]
  | block _ _ _ cl s hb hs hcb =>
    refine ⟨cl, some s, hb, hs, rfl, ?_, ?_, ?_, ?_, fun c' hc ↦ ?_⟩
    · cases k <;> rfl
    · cases k <;> rfl
    · simp [setClient, post, setFlight]
    · simp [setClient]
    · simp [setClient, post, setFlight, hc]

omit [DecidableEq C] in
theorem opens_of_callback {cl cl' : Client} {k : Call} {cell cell' : Addr} {s : Sent} {fd : Fd}
    (h : Started cfg cl cell k cl' (some s)) (hcb : s.callback = .openCb fd cell') :
    ∃ path flags, k = .openFile path flags fd := by
  cases h with
  | openSent path p flags j cache hp hg ht ho =>
    cases hcb
    exact ⟨path, flags, rfl⟩
  | transferSent => cases hcb
  | lseekSent => cases hcb
  | closeSent => cases hcb

section Call

variable {c : C} {k : Call} {cell : Addr} {cl : Client} {s : Option Sent}

theorem Called.flight (h : Called cfg w c k cell cl s w') {id : ℕ} {f : Flight C}
    (hf : w'.net id = some f) :
    w.net id = some f ∨ ∃ x, s = some x ∧ id = w.next ∧ f = ⟨c, x, .request⟩ := by
  rw [h.net] at hf
  cases s with
  | none => exact .inl hf
  | some x =>
    by_cases hid : id = w.next
    · exact .inr ⟨x, rfl, hid, by simpa [hid, eq_comm] using hf⟩
    · exact .inl (by simpa [hid] using hf)

/-- A call opens a descriptor, or leaves its latest open as it was. -/
theorem Called.latestOpen (h : Called cfg w c k cell cl s w') (c' : C) (fd : Fd) :
    (c' = c ∧ (∃ path flags, k = .openFile path flags fd) ∧
      w'.hist.latestOpen c' fd = s.map fun _ ↦ w.next) ∨
    (¬(c' = c ∧ ∃ path flags, k = .openFile path flags fd) ∧
      w'.hist.latestOpen c' fd = w.hist.latestOpen c' fd) := by
  rw [h.latest]
  exact noteOpen_latest w c k _ c' fd

theorem Called.tracked (h : Called cfg w c k cell cl s w') {c' : C} {fd : Fd}
    (hno : ¬(c' = c ∧ ∃ path flags, k = .openFile path flags fd))
    (hp : ((w'.clients c').fdMap fd).isSome) : ((w.clients c').fdMap fd).isSome := by
  by_cases hc : c' = c
  · subst c'
    rw [h.fdMap] at hp
    obtain ⟨path, hpath⟩ := Option.isSome_iff_exists.mp hp
    have hold := ((started_maps h.started).1 fd path hpath).resolve_right fun ho ↦ hno ⟨rfl, ho⟩
    simp [hold]
  · rwa [h.others c' hc] at hp

/-- A call that opens without a request tracks nothing. -/
theorem Called.untracked (h : Called cfg w c k cell cl none w') (hok : Ok cfg w) {path : Path}
    {flags : BitVec 32} {fd : Fd} (hk : k = .openFile path flags fd) :
    (w'.clients c).fdMap fd = none := by
  have hs := h.started
  subst hk
  rw [h.fdMap]
  cases hs with
  | openUntracked _ p _ _ hp hg ht => exact (untracked_of_granted (hok.clients c) hg).1
  | openOver _ p _ _ hp hg ht ho => exact absurd ho (overLimit_false (hok.clients c) _)
  | transferLocal _ j buf count offset hk hl => simp [Call.transfer] at hk

theorem Called.inTime (h : Called cfg w c k cell cl s w') (hok : Ok cfg w) (hi : InTime w)
    (hnew : w.hist.served w.next = none) : InTime w' := by
  have hquiet := quiet_of_unblocked (hok.clients c) h.unblocked
  refine ⟨fun id f fd cell' hf hcb ↦ ?_, fun c' fd j hj hn ↦ ?_, fun id f x hf hx ↦ ?_,
    fun c' fd hp ↦ ?_⟩
  · rcases h.flight hf with hold | ⟨x, rfl, rfl, rfl⟩
    · -- an unblocked client has no other open request in flight
      have hne : f.client ≠ c := fun hc ↦ hquiet.noFlight id f ⟨hold, hc, by simp [hcb]⟩
      rcases h.latestOpen f.client fd with ⟨hc, -, -⟩ | ⟨-, hsame⟩
      · exact absurd hc hne
      · rw [hsame]
        exact hi.pending id f fd cell' hold hcb
    · rcases h.latestOpen c fd with ⟨-, -, hlatest⟩ | ⟨hno, -⟩
      · exact hlatest
      · exact absurd ⟨rfl, opens_of_callback h.started hcb⟩ hno
  · rw [h.last]
    rcases h.latestOpen c' fd with ⟨-, -, hlatest⟩ | ⟨-, hsame⟩
    · rw [hlatest] at hj
      cases s with
      | none => cases hj
      | some x =>
        cases hj
        simp [h.net] at hn
    · rw [hsame] at hj
      refine hi.arrived c' fd j hj ?_
      cases s with
      | none => rwa [h.net] at hn
      | some x =>
        by_cases hid : j = w.next
        · simp [h.net, hid] at hn
        · simpa [h.net, hid] using hn
  · rw [h.served] at hx
    rcases h.flight hf with hold | ⟨y, rfl, rfl, rfl⟩
    · exact hi.answered id f x hold hx
    · simp [hnew] at hx
  · rcases h.latestOpen c' fd with ⟨rfl, ⟨path, flags, hk⟩, hlatest⟩ | ⟨hno, hsame⟩
    · cases s with
      | none => simp [h.untracked hok hk] at hp
      | some x => simp [hlatest]
    · rw [hsame]
      exact hi.opened c' fd (h.tracked hno hp)

end Call

omit [DecidableEq C] in
theorem serve_inTime (h : InTime w) (ht : Tracks cfg w) {id : ℕ} {f : Flight C}
    (hf : w.net id = some f) (hst : f.stage = .request) (srv : Server) (env : Env) :
    InTime (w.handled id f (srv.handle f.sent.request env)) := by
  have hunanswered : w.hist.served id = none := by
    by_contra hne
    obtain ⟨x, hx⟩ := Option.ne_none_iff_exists'.mp hne
    have hreply := h.answered id f x hf hx
    rw [hst] at hreply
    cases hreply
  have htaken := handled_taken w id (ht.net.kind id f hf) srv env
  generalize srv.handle f.sent.request env = r at htaken ⊢
  generalize hw : w.handled id f r = w' at htaken ⊢
  cases htaken with
  | aborted a => exact h.congr rfl ⟨rfl, rfl, rfl⟩ fun _ ↦ rfl
  | pushing srv bytes hcb =>
    refine h.setStage hf (.push bytes) rfl ⟨rfl, rfl⟩ (fun _ _ ↦ rfl) (fun x hx ↦ ?_) fun _ ↦ rfl
    simp [setFlight, setServer, hunanswered] at hx
  | silent srv hcb =>
    refine h.drop id rfl ⟨rfl, rfl⟩ (fun c fd hid ↦ ?_) (fun _ _ _ _ _ ↦ rfl) fun _ ↦ rfl
    obtain ⟨-, ⟨cell, hopen⟩, -⟩ := ht.latest c fd id f hid hf
    rw [hopen] at hcb
    cases hcb
  | responded srv out hcb =>
    refine h.setStage hf (.reply out) (by simp [setFlight, setServer]) ?_ (fun j hj ↦ ?_)
      (fun x hx ↦ ?_) (by simp [setFlight, setServer])
    · simp only [noteServed]
      split <;> exact ⟨rfl, rfl⟩
    · simp only [noteServed]
      split
      · simp [setFlight, setServer, hj]
      · rfl
    · simp only [noteServed] at hx
      split at hx
      · obtain rfl := Option.some.inj (by simpa using hx)
        rfl
      · simp [setFlight, setServer, hunanswered] at hx

theorem reply_inTime (h : InTime w) (ht : Tracks cfg w) {id : ℕ} {f : Flight C} {cl : Client}
    {out : ℤ} (hf : w.net id = some f)
    (hc : (w.clients f.client).complete out f.sent.callback = .ok cl) :
    InTime (((w.setClient f.client cl).dropFlight id).noteReply id f.client f.sent.callback) := by
  refine h.drop id (by simp [setClient, dropFlight]) ?_ (fun c fd hid ↦ ?_)
    (fun c fd j hj hlatest ↦ ?_) (reply_fdMap hc)
  · cases f.sent.callback <;> exact ⟨rfl, rfl⟩
  · obtain ⟨rfl, ⟨cell, hcb⟩, -⟩ := ht.latest c fd id f hid hf
    simp [hcb, noteReply]
  · cases hcb : f.sent.callback with
    | openCb fd' cell =>
      -- the reply is for the latest open of its own descriptor
      have hne : ¬(c = f.client ∧ fd = fd') := by
        rintro ⟨rfl, rfl⟩
        have hid := h.pending id f fd cell hf hcb
        exact hj (Option.some.inj (hlatest.symm.trans hid))
      by_cases hcf : c = f.client
      · have hfd : fd ≠ fd' := fun he ↦ hne ⟨hcf, he⟩
        simp [noteReply, setClient, dropFlight, hcf, hfd]
      · simp [noteReply, setClient, dropFlight, hcf]
    | _ => rfl

theorem steps_inTime {l : Label C} (h : InTime w) (hok : Ok cfg w) (hl : Linked cfg w)
    (hp : l.timesOut = false) (hs : Steps cfg w l w') : InTime w' := by
  have hmaps := steps_maps hs
  have hcall {c : C} {k : Call} {cell : Addr} (he : l = .call c k cell) : InTime w' := by
    subst he
    obtain ⟨cl, s, hc⟩ := steps_called hs
    exact hc.inTime hok h (hl.unserved w.next le_rfl)
  cases hs with
  | returnNow | fire | block => exact hcall rfl
  | serve id env f hf hst ha => exact serve_inTime h hl.tracks hf hst _ env
  | push id f bytes buf cell hf hst hcb =>
    refine h.setStage hf _ rfl ⟨rfl, rfl⟩ (fun _ _ ↦ rfl) (fun x hx ↦ ?_)
      fun c ↦ (hmaps rfl (by simp) c).1
    have hreply := h.answered id f x hf hx
    rw [hst] at hreply
    cases hreply
  | reply id f out cl hf hst hc => exact reply_inTime h hl.tracks hf hc
  | giveUp => cases hp
  | _ => exact h.congr rfl ⟨rfl, rfl, rfl⟩ fun c ↦ (hmaps rfl (by simp) c).1

omit [DecidableEq C] in
theorem start_inTime (job : Job) : InTime (job.start C) := by
  refine ⟨?_, ?_, ?_, ?_⟩ <;> simp [Job.start]

section Results

omit [DecidableEq C] in
theorem unblocked_of_sends {l : Label C} {x : Sending C} (h : x ∈ sends cfg w l) :
    (w.clients x.client).blocked = none := by
  cases l with
  | call c k cell =>
    simp only [sends] at h
    split at h
    case isTrue => cases h
    case isFalse hb =>
      obtain ⟨r, -, hx⟩ := Option.bind_eq_some_iff.mp h
      obtain ⟨s, -, rfl⟩ := Option.map_eq_some_iff.mp hx
      simpa using hb
  | _ => cases h

omit [DecidableEq C] in
theorem quiet_answered (h : InTime w) (ht : Tracks cfg w) {c : C} (hq : Quiet w.net c (w.clients c))
    {fd : Fd} (hp : ((w.clients c).fdMap fd).isSome) :
    ∃ id, w.hist.latestOpen c fd = some id ∧ w.hist.lastReply c fd = some id := by
  obtain ⟨id, hid⟩ := Option.isSome_iff_exists.mp (h.opened c fd hp)
  refine ⟨id, hid, h.arrived c fd id hid ?_⟩
  by_contra hne
  obtain ⟨f, hf⟩ := Option.ne_none_iff_exists'.mp hne
  obtain ⟨hc, ⟨cell, hcb⟩, -⟩ := ht.latest c fd id f hid hf
  exact hq.noFlight id f ⟨hf, hc, by simp [hcb]⟩

omit [DecidableEq C] in
/-- Without timeouts no request is sent for a descriptor whose latest open is unanswered. -/
theorem upToDate_of_inTime {l : Label C} (h : InTime w) (hok : Ok cfg w) (ht : Tracks cfg w) :
    UpToDate cfg w l := by
  rintro ⟨c, k, s⟩ hsend a ha
  obtain ⟨cell, cl, hs⟩ := started_of_sends hsend
  have hb : (w.clients c).blocked = none := unblocked_of_sends hsend
  have htracked : ((w.clients c).fdMap k.fd).isSome := by
    simp only at hs
    cases hs with
    | openSent => cases ha
    | transferSent k p fd buf count offset cache hk hp ho => simp [Call.fd_of_transfer hk, hp]
    | lseekSent p fd offset whence cache hp => simp [Call.fd, hp]
    | closeSent p fd cache hp ho => simp [Call.fd, hp]
  obtain ⟨id, hid, hlast⟩ := quiet_answered h ht (quiet_of_unblocked (hok.clients c) hb) htracked
  simp [hid, hlast]

end Results

section Closes

variable {job : Job} {l : Label C}

omit [DecidableEq C] in
theorem started_close_untracked {cl cl' : Client} {cell : Addr} {fd : Fd} {s : Option Sent}
    (h : Started cfg cl cell (.close fd) cl' s) : cl'.fdMap fd = none := by
  cases h with
  | transferLocal k j buf count offset hk => simp [Call.transfer] at hk
  | transferSent k q j buf count offset cache hk => simp [Call.transfer] at hk
  | closeLocal _ hl => simp
  | closeSent q _ cache hq ho => simp

/-- A close request names what its client has in `fd_redir_map` for a tracked descriptor,
which is forgotten with it. -/
theorem closeSent_eq_some (hnet : NetOk cfg w.net w.next) (hs : Steps cfg w l w')
    {x : Host × Fd} (hx : closeSent w w' = some x) :
    ∃ c fd cell p, l = .call c (.close fd) cell ∧ (w.clients c).blocked = none ∧
      (w.clients c).fdMap fd = some p ∧ (w'.clients c).fdMap fd = none ∧
      x = (cfg.host p, (w.clients c).fdRedirMap.index fd) := by
  obtain ⟨f, hf, hx⟩ := Option.bind_eq_some_iff.mp hx
  rcases steps_flight hs hf with ⟨g, hg, -⟩ | ⟨-, k, cell, cl, rfl, hb, hst⟩
  · simp [hnet.fresh w.next le_rfl] at hg
  · obtain ⟨cl', s, hc⟩ := steps_called hs
    obtain ⟨c, sent, stage⟩ := f
    simp only at hx hst hc hb
    cases hst with
    | openSent => cases hx
    | transferSent => cases hx
    | lseekSent => cases hx
    | closeSent p fd cache hp ho =>
      cases hx
      refine ⟨c, fd, cell, p, rfl, hb, hp, ?_, rfl⟩
      rw [hc.fdMap]
      exact started_close_untracked hc.started

omit [DecidableEq C] in
/-- What the latest open of a tracked descriptor has opened is in no other entry. -/
theorem entry_of_opened (hok : Ok job.cfg w) (ho : Owned job w) (hi : InTime w)
    (ht : Tracks job.cfg w) {c c' : C} {fd fd' : Fd} {id : ℕ} {p : Path}
    (hid : w.hist.latestOpen c fd = some id) (htracked : ((w.clients c).fdMap fd).isSome)
    (hb : (w.clients c').blocked = none) (hp : (w.clients c').fdMap fd' = some p)
    (hopen : opened w id = some (job.cfg.host p, (w.clients c').fdRedirMap.index fd')) :
    c = c' ∧ fd = fd' := by
  obtain ⟨t, hredir⟩ := Option.isSome_iff_exists.mp
    ((quiet_of_unblocked (hok.clients c') hb).complete fd' (by simp [hp]))
  rw [PMap.index_of_some hredir] at hopen
  obtain ⟨⟨h, q, d⟩, hserved, hopen⟩ := Option.bind_eq_some_iff.mp hopen
  obtain ⟨hnonneg, he⟩ := Option.ite_none_right_eq_some.mp hopen
  simp only [Option.some.injEq, Prod.mk.injEq] at he hnonneg
  obtain ⟨rfl, rfl⟩ := he
  have hnull (r : Path) : ¬Null (job.cfg.host p, r, d) := by
    intro hn
    rw [show d = -1 from hn] at hnonneg
    exact absurd hnonneg (by decide)
  have hentry : names job.cfg w (.entry c' fd') = some (job.cfg.host p, p, d) :=
    entryNames_eq_some.mpr ⟨hp, hredir, rfl⟩
  -- whoever names it, in flight or arrived, is the same owner
  have hsole {o : Owner C} {r : Path} (hr : names job.cfg w o = some (job.cfg.host p, r, d)) :
      o = .entry c' fd' := by
    have hlive := ho.ledger.live_of_names hr (hnull r)
    have hlive' := ho.ledger.live_of_names hentry (hnull p)
    obtain rfl : r = p := Option.some.inj (hlive.symm.trans hlive')
    exact ho.ledger.sole _ (hnull r) _ _ hr hentry
  cases hf : w.net id with
  | some f =>
    obtain ⟨-, ⟨cell, hcb⟩, -⟩ := ht.latest c fd id f hid hf
    have hst : f.stage = .reply d := hi.answered id f _ hf hserved
    have hsame := hserved.symm.trans (ht.served id f fd cell d hf hcb hst)
    simp only [Option.some.injEq, Prod.mk.injEq] at hsame
    obtain ⟨hhost, hpath, -⟩ := hsame
    have howner : names job.cfg w (.reply id) = some (job.cfg.host p, q, d) := by
      simp [names, hf, replyNames, hcb, hst, hhost, hpath]
    cases hsole howner
  | none =>
    obtain ⟨path, hpath⟩ := Option.isSome_iff_exists.mp htracked
    obtain ⟨s, hs, hserved'⟩ := ht.entry c fd id path hid (hi.arrived c fd id hid hf) hpath
    have hsame := hserved.symm.trans hserved'
    simp only [Option.some.injEq, Prod.mk.injEq] at hsame
    obtain ⟨hhost, -, rfl⟩ := hsame
    have howner : names job.cfg w (.entry c fd) = some (job.cfg.host p, path, d) :=
      entryNames_eq_some.mpr ⟨hpath, hs, hhost.symm⟩
    cases hsole howner
    exact ⟨rfl, rfl⟩

/-- No close request has been sent for what the latest open of a tracked descriptor has
opened, nor for what no request has opened yet. -/
structure Unclosed (a : Watch C) : Prop where
  latest : ∀ c fd id, a.world.hist.latestOpen c fd = some id →
    ((a.world.clients c).fdMap fd).isSome → a.closes id = 0
  unsent : ∀ id, a.world.next ≤ id → a.closes id = 0

theorem step_closes {a b : Watch C} {id : ℕ} (h : a.step cfg l = some b)
    (hno : ∀ x, opened a.world id = some x → closeSent a.world b.world ≠ some x) :
    b.closes id = a.closes id := by
  obtain ⟨w, hw, rfl⟩ := Option.map_eq_some_iff.mp h
  have hif : ¬((opened a.world id).isSome ∧ opened a.world id = closeSent a.world w) := by
    rintro ⟨hsome, heq⟩
    obtain ⟨x, hx⟩ := Option.isSome_iff_exists.mp hsome
    exact hno x hx (heq.symm.trans hx)
  simp only [if_neg hif, Nat.add_zero]

theorem step_unclosed {a b : Watch C} (hu : Unclosed a) (hok : Ok job.cfg a.world)
    (ho : Owned job a.world) (hl : Linked job.cfg a.world) (hi : InTime a.world)
    (h : a.step job.cfg l = some b) : Unclosed b := by
  have hs := (Watch.step_steps h).1
  have hunsent (id : ℕ) (hid : a.world.next ≤ id) : b.closes id = 0 := by
    rw [step_closes h, hu.unsent id hid]
    intro x hx
    simp [opened, hl.unserved id hid] at hx
  refine ⟨fun c fd id hid hp ↦ ?_, fun id hid ↦ hunsent id ((steps_next hs).trans hid)⟩
  rcases steps_latest hs hid with rfl | ⟨hold, hmap⟩
  · exact hunsent _ le_rfl
  · obtain ⟨path, hpath⟩ := Option.isSome_iff_exists.mp hp
    have hp' : ((a.world.clients c).fdMap fd).isSome := by simp [hmap path hpath]
    rw [step_closes h, hu.latest c fd id hold hp']
    intro x hx hsent
    -- who closes what this open has opened forgets its own descriptor, which is this one
    obtain ⟨c', fd', cell, q, -, hb, hq, hforgot, rfl⟩ := closeSent_eq_some hl.tracks.net hs hsent
    obtain ⟨rfl, rfl⟩ := entry_of_opened hok ho hi hl.tracks hold hp' hb hq hx
    simp [hforgot] at hp

end Closes

/-- What holds of every watched state of a run without timeouts. -/
structure Calm (job : Job) (a : Watch C) : Prop where
  ok : Ok job.cfg a.world
  owned : Owned job a.world
  linked : Linked job.cfg a.world
  inTime : InTime a.world
  noTrace : NoTrace a
  unclosed : Unclosed a

section Run

variable {job : Job} {l : Label C}

omit [DecidableEq C] in
theorem Calm.close_well {a : Watch C} (h : Calm job a) {c : C} {fd : Fd} {p : Path}
    (hb : (a.world.clients c).blocked = none) (hp : (a.world.clients c).fdMap fd = some p) :
    ∀ x ∈ openedFor a.world c fd,
      a.closes x.1 = if (a.world.clients c).fdRedirMap.index fd = x.2.2 then 0 else 1 := by
  rintro ⟨id, host, d⟩ hx
  obtain ⟨id', hid, hx⟩ := Option.bind_eq_some_iff.mp hx
  obtain ⟨y, hy, he⟩ := Option.map_eq_some_iff.mp hx
  cases he
  have htracked : ((a.world.clients c).fdMap fd).isSome := by simp [hp]
  have hq := quiet_of_unblocked (h.ok.clients c) hb
  obtain ⟨id'', hid', hlast⟩ := quiet_answered h.inTime h.linked.tracks hq htracked
  obtain rfl : id = id'' := Option.some.inj (hid.symm.trans hid')
  obtain ⟨s, hs, hserved⟩ := h.linked.tracks.entry c fd id p hid hlast hp
  obtain ⟨z, hz, hopen⟩ := Option.bind_eq_some_iff.mp hy
  obtain ⟨-, he⟩ := Option.ite_none_right_eq_some.mp hopen
  obtain rfl : z = (job.cfg.host p, p, s) := Option.some.inj (hz.symm.trans hserved)
  cases he
  rw [if_pos (PMap.index_of_some hs)]
  exact h.unclosed.latest c fd id hid htracked

theorem Calm.well {a b : Watch C} (h : Calm job a) (hs : a.step job.cfg l = some b) :
    Well job.cfg a l := by
  have hsteps := (Watch.step_steps hs).1
  cases l with
  | call c k cell =>
    cases k with
    | close fd =>
      obtain ⟨cl, s, hc⟩ := steps_called hsteps
      intro p hp
      rw [if_neg (overLimit_false (h.ok.clients c) _)]
      exact h.close_well hc.unblocked hp
    | _ => trivial
  | reply id =>
    intro f hf fd hfd
    have hf : a.world.net id = some f := hf
    by_contra hclosed
    have hcb : ∃ cell, f.sent.callback = .openCb fd cell := by
      cases hcb : f.sent.callback with
      | openCb fd' cell =>
        obtain rfl : fd' = fd := by simpa [openReply, hcb] using hfd
        exact ⟨cell, rfl⟩
      | _ => simp [openReply, hcb] at hfd
    obtain ⟨cell, hcb⟩ := hcb
    -- the client still waits for this open, so it has a path for the descriptor
    obtain ⟨p, -, ha⟩ := awaiting_of_flight h.ok hf (by simp [hcb])
    obtain ⟨path, hpath, hsent⟩ := ha.sent
    obtain ⟨hnone, -⟩ := h.noTrace f.client fd (by simpa using hclosed)
    have hfd' : p.call.fd = fd := by
      unfold sentFor at hsent
      cases hcall : p.call <;> simp_all [Call.fd]
    rw [hfd', hnone] at hpath
    cases hpath
  | _ => trivial

theorem Calm.step {a b : Watch C} (h : Calm job a) (hl : l.timesOut = false)
    (hs : a.step job.cfg l = some b) : Calm job b := by
  have hsteps := (Watch.step_steps hs).1
  exact {
    ok := steps_ok h.ok hl hsteps
    owned := steps_owned h.ok h.owned hl hsteps
    linked := steps_linked h.linked hsteps
    inTime := steps_inTime h.inTime h.ok h.linked hl hsteps
    noTrace := ((step_well_iff h.linked h.noTrace hs).mpr (h.well hs)).1
    unclosed := step_unclosed h.unclosed h.ok h.owned h.linked h.inTime hs }

omit [DecidableEq C] in
theorem start_calm (job : Job) : Calm job (.start (job.start C)) where
  ok := start_ok job C
  owned := start_owned job
  linked := start_linked job
  inTime := start_inTime job
  noTrace := by simp [NoTrace, Watch.start]
  unclosed := ⟨by simp [Watch.start], by simp [Watch.start]⟩

/-- In runs without timeouts every close of a descriptor that the server has opened sends
exactly one close request for it, and what is closed leaves no trace. -/
theorem patient_closing (job : Job) (ls : List (Label C)) {b : Watch C}
    (h : exec (Watch.step job.cfg) (.start (job.start C)) ls = some b)
    (hl : ∀ l ∈ ls, l.timesOut = false) :
    Along (Watch.step job.cfg) (fun a l ↦ ∀ c ∈ a.step job.cfg l, NoTrace c ∧ Released a l c)
      (.start (job.start C)) ls := by
  have hpatient := (Along.iff_forall h).mpr hl
  have hgood : Along (Watch.step job.cfg) (fun a l ↦ l.timesOut = false ∧
      ∀ c ∈ a.step job.cfg l, NoTrace c ∧ Released a l c) (.start (job.start C)) ls := by
    refine (Along.congr_of_step (I := Calm job) (fun a l c hc hs ↦ ?_) (start_calm job) h).mpr
      hpatient
    refine ⟨and_iff_left fun d hd ↦ ?_, fun hl ↦ hc.step hl hs⟩
    exact (step_well_iff hc.linked hc.noTrace hd).mpr (hc.well hd)
  exact hgood.mono fun _ _ hx ↦ hx.2

/-- In runs without timeouts every request names what its host returned for the latest open. -/
theorem patient_translated {w : World C}
    (h : Reach (World.step job.cfg) Patient (job.start C) w) (l : Label C) :
    Translated job.cfg w l := by
  obtain ⟨hok, hlinked, hi⟩ := h.invariant
    (fun w ↦ Ok job.cfg w ∧ Linked job.cfg w ∧ InTime w)
    ⟨start_ok job C, start_linked job, start_inTime job⟩
    fun _ _ _ hb hl hs ↦ ⟨steps_ok hb.1 hl (step_steps hs), steps_linked hb.2.1 (step_steps hs),
      steps_inTime hb.2.2 hb.1 hb.2.1 hl (step_steps hs)⟩
  exact translated_of_upToDate hlinked.tracks (upToDate_of_inTime hi hok hlinked.tracks)

end Run

end FTCache.Patience
