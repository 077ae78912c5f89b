import FTCache.Descriptors
import FTCache.Library.Ledger
import FTCache.ProtocolSteps

namespace FTCache.Ownership

open Runs Posix World Client Flights Protocol NvmeCache Descriptors

variable {C : Type} {job : Job}

/-- Where the number of a server descriptor can be kept. -/
inductive Owner (C : Type)
  | entry (c : C) (fd : Fd)
  | reply (id : ℕ)
  | closing (id : ℕ)
  deriving DecidableEq

/-- The server descriptor behind a tracked local descriptor, with the path it was opened for. -/
def entryNames (cfg : Config) (cl : Client) (fd : Fd) : Option (Host × Path × Fd) :=
  match cl.fdMap fd, cl.fdRedirMap fd with
  | some p, some s => some (cfg.host p, p, s)
  | _, _ => none

def replyNames (f : Flight C) : Option (Host × Path × Fd) :=
  match f.sent.callback, f.stage with
  | .openCb _ _, .reply s => some (f.sent.host, f.sent.path, s)
  | _, _ => none

def closingNames (f : Flight C) : Option (Host × Path × Fd) :=
  match f.sent.request with
  | .closeRpc inp => some (f.sent.host, f.sent.path, inp.fd)
  | _ => none

def names (cfg : Config) (w : World C) : PMap (Owner C) (Host × Path × Fd)
  | .entry c fd => entryNames cfg (w.clients c) fd
  | .reply id => (w.net id).bind replyNames
  | .closing id => (w.net id).bind closingNames

/-- What a failed open leaves names no descriptor. -/
def Null (r : Host × Path × Fd) : Prop := r.2.2 = -1

/-- A server descriptor that was opened for a path. -/
def Live (w : World C) (r : Host × Path × Fd) : Prop :=
  (w.servers r.1).fdToPath r.2.2 = some r.2.1

/-- The servers are in order, and each of their client descriptors has one owner. -/
structure Owned (job : Job) (w : World C) : Prop where
  servers : ∀ h, ServerOk job h (w.servers h)
  ledger : Ledger Null (names job.cfg w) (Live w)

section Names

variable {cfg : Config} {w w' : World C}

theorem entryNames_congr {cl cl' : Client} (hm : cl'.fdMap = cl.fdMap)
    (hr : cl'.fdRedirMap = cl.fdRedirMap) : entryNames cfg cl' = entryNames cfg cl := by
  funext fd
  simp [entryNames, hm, hr]

theorem entryNames_finish (cl : Client) (k : Call) (ret : ℤ) :
    entryNames cfg (cl.finishCall cfg k ret).1 = entryNames cfg cl := by
  obtain ⟨kernel, memory, he, -⟩ := finishCall_shape cfg cl k ret
  rw [he]
  exact entryNames_congr rfl rfl

/-- Starting a call moves no entry, but for that of a descriptor to be closed. -/
theorem entryNames_started {net : PMap ℕ (Flight C)} {c : C} {cl cl' : Client} {k : Call}
    {cell : Addr} {s : Option Sent} (h : ClientOk cfg net c cl) (hb : cl.blocked = none)
    (hs : Started cfg cl cell k cl' s) (hcb : ∀ s', s = some s' → s'.callback ≠ .none) :
    entryNames cfg cl' = entryNames cfg cl := by
  have hq := quiet_of_unblocked h hb
  cases hs with
  | openUntracked => exact entryNames_congr rfl rfl
  | openOver path p flags fd hp hg ht ho => exact absurd ho (overLimit_false h _)
  | openSent path p flags fd cache hp hg ht ho =>
    obtain ⟨hm, hr⟩ := untracked_of_granted h hg
    funext j
    by_cases hj : j = fd
    · subst j
      simp [entryNames, hr, hm]
    · simp [entryNames, hj]
  | transferLocal => rfl
  | transferSent k p fd buf count offset cache hk hp ho =>
    obtain ⟨s, hs⟩ := Option.isSome_iff_exists.mp (hq.complete fd (by simp [hp]))
    exact entryNames_congr rfl (PMap.touch_of_some hs)
  | lseekLocal => rfl
  | lseekSent p fd offset whence cache hp =>
    obtain ⟨s, hs⟩ := Option.isSome_iff_exists.mp (hq.complete fd (by simp [hp]))
    exact entryNames_congr rfl (PMap.touch_of_some hs)
  | closeLocal fd hl =>
    have hnone := untracked_of_overLimit h hl
    funext j
    by_cases hj : j = fd
    · subst j
      simp [entryNames, hnone]
    · simp [entryNames, hj]
  | closeSent => exact absurd rfl (hcb _ rfl)

theorem names_congr (hc : ∀ c, entryNames cfg (w'.clients c) = entryNames cfg (w.clients c))
    (hr : ∀ id, (w'.net id).bind replyNames = (w.net id).bind replyNames)
    (hk : ∀ id, (w'.net id).bind closingNames = (w.net id).bind closingNames) :
    names cfg w' = names cfg w := by
  funext o
  cases o with
  | entry c fd => exact congrFun (hc c) fd
  | reply id => exact hr id
  | closing id => exact hk id

theorem entryNames_eq_some {cl : Client} {fd s : Fd} {host : Host} {p : Path} :
    entryNames cfg cl fd = some (host, p, s) ↔
      cl.fdMap fd = some p ∧ cl.fdRedirMap fd = some s ∧ cfg.host p = host := by
  unfold entryNames
  split
  case h_1 q t hq ht =>
    rw [hq, ht]
    constructor
    · rintro ⟨⟩
      exact ⟨rfl, rfl, rfl⟩
    · intro h
      obtain ⟨⟨⟩, ⟨⟩, rfl⟩ := h
      rfl
  case h_2 hnone =>
    refine iff_of_false (by simp) fun hp ↦ hnone p s hp.1 hp.2.1

theorem names_handled {id : ℕ} {f : Flight C} {r : Handled} (hf : w.net id = some f)
    (hcb : f.sent.callback ≠ .none) (hno : ∀ fd cell, f.sent.callback ≠ .openCb fd cell)
    (ht : Taken w id f r (w.handled id f r)) :
    names cfg (w.handled id f r) = names cfg w := by
  have hreply (stage : Stage) : replyNames { f with stage := stage } = none := by
    cases hc : f.sent.callback <;> simp_all [replyNames]
  have hsame (stage : Stage) (w' : World C)
      (hw : w'.net = w.net.insert id { f with stage := stage })
      (hc : w'.clients = w.clients) : names cfg w' = names cfg w := by
    refine names_congr (fun c ↦ by rw [hc]) (fun j ↦ ?_) (fun j ↦ ?_)
    · by_cases hj : j = id
      · subst j
        simp [hw, hreply, hf]
      · simp [hw, hj]
    · by_cases hj : j = id
      · subst j
        simp [hw, hf, closingNames]
      · simp [hw, hj]
  cases ht with
  | aborted a => rfl
  | responded srv out hn =>
    exact hsame (.reply out) _ (by simp [handled, setServer, setFlight]) (handled_clients ..)
  | pushing srv bytes hn => exact hsame (.push bytes) _ rfl rfl
  | silent srv hn => exact absurd hn hcb

end Names

section Steps

variable {w : World C}

theorem live_congr {w' : World C} (h : ∀ host, (w'.servers host).fdToPath =
    (w.servers host).fdToPath) (r : Host × Path × Fd) : Live w' r ↔ Live w r := by
  simp [Live, h]

theorem Owned.of_names {w' : World C} (ho : Owned job w)
    (hs : ∀ h, ServerOk job h (w'.servers h) ∧
      (w'.servers h).fdToPath = (w.servers h).fdToPath)
    (hn : names job.cfg w' = names job.cfg w) : Owned job w' := by
  refine ⟨fun h ↦ (hs h).1, ?_⟩
  rw [hn]
  exact ho.ledger.congr fun r _ ↦ live_congr (fun h ↦ (hs h).2) r

theorem Owned.of_clients {w' : World C} (ho : Owned job w) (hs : w'.servers = w.servers)
    (hn : names job.cfg w' = names job.cfg w) : Owned job w' :=
  ho.of_names (fun h ↦ ⟨hs ▸ ho.servers h, by rw [hs]⟩) hn

theorem servers_update (ho : Owned job w) {h : Host} {srv : Server} (hsrv : ServerOk job h srv)
    (j : Host) : ServerOk job j (Function.update w.servers h srv j) := by
  by_cases hj : j = h
  · subst j
    simpa using hsrv
  · simpa [hj] using ho.servers j

theorem Owned.of_moved {w' : World C} (ho : Owned job w) {h : Host} {srv : Server}
    (hm : Moved (w.servers h) srv) (hs : w'.servers = Function.update w.servers h srv)
    (hn : names job.cfg w' = names job.cfg w) : Owned job w' := by
  refine ho.of_names (fun j ↦ ?_) hn
  rw [hs]
  refine ⟨servers_update ho ((ho.servers h).moved hm) j, ?_⟩
  by_cases hj : j = h
  · subst j
    simpa using hm.fdToPath
  · simp [hj]

variable [DecidableEq C]

/-- A server answers an open request: the reply owns the new descriptor. -/
theorem opening_owned (ho : Owned job w) {id : ℕ} {env : Env} {f : Flight C} {fd : Fd}
    {cell : Addr} {srv : Server} {out : ℤ} (hf : w.net id = some f) (hst : f.stage = .request)
    (hcb : f.sent.callback = .openCb fd cell) (hsrc : (job.cfg.files f.sent.path).isSome)
    (hr : (w.servers f.sent.host).ftcOpenRpcHandler ⟨f.sent.path, fd⟩ env = .responded srv out)
    (hreq : f.sent.request = .openRpc ⟨f.sent.path, fd⟩) :
    Owned job (w.handled id f (.responded srv out)) := by
  obtain ⟨hok, hmap, hfree⟩ := (ho.servers f.sent.host).opened hsrc hr
  have hservers := handled_servers w id f (.responded srv out)
  have hnames : names job.cfg (w.handled id f (.responded srv out)) =
      (names job.cfg w).insert (.reply id) (f.sent.host, f.sent.path, out) := by
    funext o
    cases o with
    | entry c j => simp [names, handled_clients]
    | reply j =>
      by_cases hj : j = id
      · simp [names, handled, setFlight, replyNames, hcb, hj]
      · simp [names, handled, setFlight, hj, setServer]
    | closing j =>
      by_cases hj : j = id
      · simp [names, handled, setFlight, closingNames, hreq, hj, hf]
      · simp [names, handled, setFlight, hj, setServer]
  have hnone : names job.cfg w (.reply id) = none := by
    simp [names, hf, replyNames, hcb, hst]
  refine ⟨fun j ↦ ?_, ?_⟩
  · rw [hservers]
    exact servers_update ho hok j
  · rw [hnames]
    refine (ho.ledger.acquire hnone fun hn ↦ ?_).congr fun x hn ↦ ?_
    · simp [Live, hfree hn]
    · obtain ⟨j, p, s⟩ := x
      by_cases hj : j = f.sent.host
      · subst j
        by_cases hs : s = out
        · simp [Live, hservers, Handled.after, hmap, hs, hfree (hs ▸ hn), eq_comm]
        · simp [Live, hservers, Handled.after, hmap, hs]
      · simp [Live, hservers, hj]

/-- A server carries out a close request, and the descriptor is gone with the request. -/
theorem closing_owned (ho : Owned job w) {id : ℕ} {env : Env} {f : Flight C} {inp : CloseIn}
    {srv : Server} (hf : w.net id = some f) (hst : f.stage = .request)
    (hreq : f.sent.request = .closeRpc inp)
    (hr : (w.servers f.sent.host).handle (.closeRpc inp) env = .silent srv) :
    Owned job (w.handled id f (.silent srv)) := by
  have hname : names job.cfg w (.closing id) = some (f.sent.host, f.sent.path, inp.fd) := by
    simp [names, hf, closingNames, hreq]
  have hne : inp.fd ≠ -1 := fun he ↦ by
    have hnn := (ho.servers f.sent.host).nonneg inp.fd (closed_open hr)
    simp [he] at hnn
  have hlive : Live w (f.sent.host, f.sent.path, inp.fd) := ho.ledger.live_of_names hname hne
  obtain ⟨hown, -⟩ := (ho.servers f.sent.host).backed inp.fd f.sent.path hlive hne
  obtain ⟨hok, hmap⟩ := (ho.servers f.sent.host).closed hr hown
  have hservers := handled_servers w id f (.silent srv)
  have hnames : names job.cfg (w.handled id f (.silent srv)) =
      (names job.cfg w).erase (.closing id) := by
    funext o
    cases o with
    | entry c j => simp [names, handled_clients]
    | reply j =>
      by_cases hj : j = id
      · simp [names, handled, dropFlight, setServer, hj, hf, replyNames, hst]
      · simp [names, handled, dropFlight, setServer, hj]
    | closing j =>
      by_cases hj : j = id <;> simp [names, handled, dropFlight, setServer, hj]
  refine ⟨fun j ↦ ?_, ?_⟩
  · rw [hservers]
    exact servers_update ho hok j
  · rw [hnames]
    refine (ho.ledger.release hname).congr fun x hn ↦ ?_
    obtain ⟨j, p, s⟩ := x
    by_cases hj : j = f.sent.host
    · subst j
      by_cases hs : s = inp.fd
      · subst s
        simp only [Live] at hlive
        simp [Live, hservers, Handled.after, hmap, hlive, eq_comm]
      · simp [Live, hservers, Handled.after, hmap, hs]
    · simp [Live, hservers, hj]

theorem serve_owned (h : Ok job.cfg w) (ho : Owned job w) {id : ℕ} {env : Env} {f : Flight C}
    (hf : w.net id = some f) (hst : f.stage = .request) :
    Owned job (w.handled id f ((w.servers f.sent.host).handle f.sent.request env)) := by
  have hk := h.net.kind id f hf
  have ht := handled_taken w id hk (w.servers f.sent.host) env
  obtain ⟨c, sent, stage⟩ := f
  cases hst
  cases hk with
  | transfer path accessfd fd buf count offset cell =>
    exact ho.of_moved (transfer_moved _ _ env) (handled_servers ..)
      (names_handled hf (by simp) (by simp) ht)
  | seeking path inp =>
    exact ho.of_moved (seek_moved _ inp) (handled_servers ..)
      (names_handled hf (by simp) (by simp) ht)
  | opening path fd cell hp =>
    obtain ⟨srv, out, hr⟩ : ∃ srv out, (w.servers (job.cfg.host path)).ftcOpenRpcHandler
        ⟨path, fd⟩ env = .responded srv out := ⟨_, _, rfl⟩
    simp only [Server.handle, hr]
    exact opening_owned ho hf rfl rfl hp hr rfl
  | closing path inp =>
    rcases (w.servers (job.cfg.host path)).handle_closeRpc inp env with ⟨srv, hr⟩ | hr
    · simp only [hr]
      exact closing_owned ho hf rfl rfl hr
    · simp only [hr]
      have hm : Moved (w.servers (job.cfg.host path))
          { w.servers (job.cfg.host path) with aborted := true } := ⟨rfl, rfl, fun _ ↦ rfl⟩
      exact ho.of_moved hm rfl rfl

/-- An open reply hands its descriptor to the entry of the local descriptor. -/
theorem reply_owned (h : Ok job.cfg w) (ho : Owned job w) {id : ℕ} {f : Flight C} {out : ℤ}
    {cl : Client} (hf : w.net id = some f) (hst : f.stage = .reply out)
    (hc : (w.clients f.client).complete out f.sent.callback = .ok cl) :
    Owned job (((w.setClient f.client cl).dropFlight id).noteReply id f.client
      f.sent.callback) := by
  have hk := h.net.kind id f hf
  obtain ⟨c, sent, stage⟩ := f
  cases hst
  -- the replies to reads and seeks leave the tables as they were
  have hsame (hm : cl.fdMap = (w.clients c).fdMap) (hr : cl.fdRedirMap = (w.clients c).fdRedirMap)
      (hno : replyNames ⟨c, sent, .reply out⟩ = none)
      (hcl : closingNames ⟨c, sent, .reply out⟩ = none) :
      Owned job (((w.setClient c cl).dropFlight id).noteReply id c sent.callback) := by
    refine ho.of_clients (by simp [setClient, dropFlight]) (names_congr (fun c' ↦ ?_) ?_ ?_)
    · simpa [setClient, dropFlight] using update_kept _ (entryNames_congr hm hr) c'
    all_goals
      intro j
      by_cases hj : j = id <;> simp [setClient, dropFlight, hj, hf, hno, hcl]
  cases hk with
  | closing path inp => exact absurd (h.net.closing id _ hf rfl) (by simp)
  | transfer path accessfd fd buf count offset cell =>
    cases hc
    exact hsame rfl rfl rfl rfl
  | seeking path inp =>
    cases hc
    exact hsame rfl rfl rfl rfl
  | opening path fd cell hp =>
    obtain ⟨p, rfl, ha⟩ := awaiting_of_flight h hf (by simp)
    obtain ⟨path', hpath, hsent⟩ := ha.sent
    obtain ⟨rfl, hfd, ho'⟩ : path = path' ∧ p.call.fd = fd ∧ opens p.call fd := by
      unfold sentFor at hsent
      cases hcall : p.call <;> simp_all [Call.fd, opens]
    rw [hfd] at hpath
    have hredir : (w.clients c).fdRedirMap fd = none := by
      by_contra hne
      exact (ha.complete fd (by simp [hpath])).mp (Option.isSome_iff_ne_none.mpr hne) ho'
    cases hc
    have hfree : names job.cfg w (.entry c fd) = none := by
      simp [names, entryNames, hpath, hredir]
    refine ⟨ho.servers, ?_⟩
    have hmove := ho.ledger.move (a := Owner.reply p.request) hfree
    refine Eq.subst (motive := fun m ↦ Ledger Null m _) ?_ hmove
    funext o
    cases o with
    | entry c' j =>
      by_cases hc' : c' = c
      · subst c'
        by_cases hj : j = fd
        · subst j
          simp [Ledger.transfer, names, setClient, dropFlight, hf, replyNames, entryNames, setDone,
            hpath]
        · simp [Ledger.transfer, names, setClient, dropFlight, entryNames, setDone, hj]
      · simp [Ledger.transfer, names, setClient, dropFlight, hc']
    | reply j =>
      by_cases hj : j = p.request <;>
        simp [Ledger.transfer, names, setClient, dropFlight, hj]
    | closing j =>
      by_cases hj : j = p.request <;>
        simp [Ledger.transfer, names, setClient, dropFlight, hj, hf, closingNames]

/-- A close call hands the descriptor from the entry to its close request. -/
theorem fire_owned (h : Ok job.cfg w) (ho : Owned job w) {c : C} {k : Call} {cell : Addr}
    {cl : Client} {s : Sent} (hb : (w.clients c).blocked = none)
    (hs : Started job.cfg (w.clients c) cell k cl (some s)) (hcb : s.callback = .none) :
    Owned job (((w.noteOpen c k (some w.next)).post c s).returned c k
      (cl.finishCall job.cfg k 0)) := by
  have hfresh := h.net.fresh w.next le_rfl
  cases hs with
  | openSent => cases hcb
  | transferSent => cases hcb
  | lseekSent => cases hcb
  | closeSent p fd cache hp ho' =>
    obtain ⟨t, ht⟩ := Option.isSome_iff_exists.mp
      ((quiet_of_unblocked (h.clients c) hb).complete fd (by simp [hp]))
    have hfree : names job.cfg w (.closing w.next) = none := by simp [names, hfresh]
    refine ⟨ho.servers, ?_⟩
    have hmove := ho.ledger.move (a := Owner.entry c fd) hfree
    refine Eq.subst (motive := fun m ↦ Ledger Null m _) ?_ hmove
    funext o
    cases o with
    | entry c' j =>
      by_cases hc' : c' = c
      · subst c'
        simp only [Ledger.transfer, names, returned, setClient, post, setFlight,
          Function.update_self, entryNames_finish]
        by_cases hj : j = fd
        · simp [hj, entryNames]
        · simp [hj, entryNames]
      · simp [Ledger.transfer, names, returned, setClient, post, setFlight, hc']
    | reply j =>
      by_cases hj : j = w.next <;>
        simp [Ledger.transfer, names, returned, setClient, post, setFlight, hj, hfresh, replyNames]
    | closing j =>
      by_cases hj : j = w.next
      · subst j
        simp [Ledger.transfer, names, returned, setClient, post, setFlight, closingNames,
          entryNames, hp, ht, PMap.index_of_some ht]
      · simp [Ledger.transfer, names, returned, setClient, post, setFlight, hj]

theorem steps_owned {w' : World C} {l : Label C} (h : Ok job.cfg w) (ho : Owned job w)
    (hl : Patient w l) (hs : Steps job.cfg w l w') : Owned job w' := by
  have hentries (hcall : l.calling = none) (hreply : ∀ id, l ≠ .reply id) (c : C) :
      entryNames job.cfg (w'.clients c) = entryNames job.cfg (w.clients c) := by
    obtain ⟨hm, hr⟩ := steps_maps hs hcall hreply c
    exact entryNames_congr hm hr
  cases hs with
  | returnNow c k cell cl hb hs =>
    refine ho.of_clients (by simp [returned, setClient]) (names_congr (fun c' ↦ ?_) ?_ ?_)
    · have he := entryNames_started (h.clients c) hb hs (by simp)
      rw [← entryNames_finish cl k (-1)] at he
      simpa [returned, setClient] using update_kept _ he c'
    all_goals simp [returned, setClient]
  | fire c k cell cl s hb hs hcb => exact fire_owned h ho hb hs hcb
  | block c k cell cl s hb hs hcb =>
    have hfresh := h.net.fresh w.next le_rfl
    refine ho.of_clients (by simp [setClient, post, setFlight]) (names_congr (fun c' ↦ ?_)
      (fun j ↦ ?_) (fun j ↦ ?_))
    · have he := entryNames_started (h.clients c) hb hs (by simpa using hcb)
      have hblocked (p : Pending) :
          entryNames job.cfg { cl with blocked := some p } = entryNames job.cfg cl :=
        entryNames_congr rfl rfl
      simpa [setClient, post, setFlight] using update_kept _ ((hblocked _).trans he) c'
    · by_cases hj : j = w.next <;> simp [setClient, post, setFlight, hj, hfresh, replyNames]
    · by_cases hj : j = w.next
      · subst j
        have hnone : closingNames ⟨c, s, .request⟩ = none := by
          have hk := started_kind hs
          cases hk <;> simp_all [closingNames]
        simp [setClient, post, setFlight, hfresh, hnone]
      · simp [setClient, post, setFlight, hj]
  | serve id env f hf hst ha => exact serve_owned h ho hf hst
  | push id f bytes buf cell hf hst hcb =>
    refine ho.of_clients rfl (names_congr (hentries rfl (by simp)) (fun j ↦ ?_) (fun j ↦ ?_))
    · by_cases hj : j = id <;> simp [setClient, setFlight, hj, hf, replyNames, hcb]
    · by_cases hj : j = id <;> simp [setClient, setFlight, hj, hf, closingNames]
  | reply id f out cl hf hst hc => exact reply_owned h ho hf hst hc
  | giveUp c p hb ht => cases hl
  | mover h' m srv ha hm =>
    refine ho.of_names (fun j ↦ ?_) rfl
    by_cases hj : j = h'
    · subst j
      have hfds : srv.fds = (w.servers h').fds ∧ srv.fdToPath = (w.servers h').fdToPath := by
        cases hm <;> exact ⟨rfl, rfl⟩
      simpa [setServer] using ⟨(ho.servers h').mover hm hfds.1 hfds.2, hfds.2⟩
    · simpa [setServer, hj] using ho.servers j
  | _ =>
    exact ho.of_clients rfl (names_congr (hentries rfl (by simp)) (fun _ ↦ rfl) fun _ ↦ rfl)

omit [DecidableEq C] in
theorem start_owned (job : Job) : Owned job (job.start C) := by
  refine ⟨fun h ↦ ⟨fun s hs ↦ hs, job.own_nonneg h, by simp [Job.start, Server.start],
    fun s hs hn ↦ ?_, start_sound _ _⟩, ⟨fun r hr o o' ho ↦ ?_, fun r hr ↦ ?_⟩⟩
  · simp only [Job.start, Server.start] at hs
    simp [hn] at hs
  · cases o <;> simp [names, Job.start, entryNames] at ho
  · refine iff_of_false (by simp [Live, Job.start, Server.start]) ?_
    intro hx
    obtain ⟨o, ho⟩ := hx
    cases o <;> simp [names, Job.start, entryNames] at ho

/-- Ownership holds in every run without timeouts, whether servers succeed or fail. -/
theorem reach_owned {w : World C} (h : Reach (World.step job.cfg) Patient (job.start C) w) :
    Ok job.cfg w ∧ Owned job w :=
  h.invariant (fun w ↦ Ok job.cfg w ∧ Owned job w) ⟨start_ok job C, start_owned job⟩
    fun _ _ _ hb hl hs ↦
      ⟨steps_ok hb.1 hl (step_steps hs), steps_owned hb.1 hb.2 hl (step_steps hs)⟩

end Steps

end FTCache.Ownership
