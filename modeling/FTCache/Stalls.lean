import FTCache.Asserts
import FTCache.Wrappers

namespace FTCache.Stalls

open Runs Posix World Client Flights Server

variable {C : Type} {cfg : Config}

/-- Client `c` has a seek request under number `id` in flight. -/
def Seeks (net : PMap ℕ (Flight C)) (c : C) (id : ℕ) : Prop :=
  ∃ f, net id = some f ∧ f.client = c ∧ f.sent.callback = .seekCb

/-- Requests for a seek are those of the call that waits for the answer, and as long as
`done` is not set there is one. -/
structure SeekOk (net : PMap ℕ (Flight C)) (c : C) (cl : Client) : Prop where
  flight : ∀ id, Seeks net c id →
    ∃ p, cl.blocked = some p ∧ timed p.call = false ∧ p.request = id ∧ cl.seekDone = 0
  waits : ∀ p, cl.blocked = some p → timed p.call = false →
    cl.seekDone = 1 ∨ cl.seekDone = 0 ∧ Seeks net c p.request

theorem SeekOk.congr {net net' : PMap ℕ (Flight C)} {c : C} {cl cl' : Client}
    (h : SeekOk net c cl) (hb : cl'.blocked = cl.blocked) (hd : cl'.seekDone = cl.seekDone)
    (hs : ∀ id, Seeks net' c id ↔ Seeks net c id) : SeekOk net' c cl' := by
  refine ⟨fun id hid ↦ ?_, fun p hp ht ↦ ?_⟩
  · rw [hb, hd]
    exact h.flight id ((hs id).mp hid)
  · rw [hd, hs]
    exact h.waits p (hb ▸ hp) ht

/-- A client that does not wait for a seek has none in flight. -/
theorem SeekOk.none {net : PMap ℕ (Flight C)} {c : C} {cl : Client} (h : SeekOk net c cl)
    (hb : ∀ p, cl.blocked = some p → timed p.call = true) (id : ℕ) : ¬Seeks net c id := by
  intro hs
  obtain ⟨p, hp, ht, -, -⟩ := h.flight id hs
  rw [hb p hp] at ht
  cases ht

theorem seekOk_of_none {net : PMap ℕ (Flight C)} {c : C} {cl : Client}
    (hs : ∀ id, ¬Seeks net c id) (hb : ∀ p, cl.blocked = some p → timed p.call = true) :
    SeekOk net c cl := by
  refine ⟨fun id hid ↦ absurd hid (hs id), fun p hp ht ↦ ?_⟩
  rw [hb p hp] at ht
  cases ht

theorem seeks_insert_other {net : PMap ℕ (Flight C)} {c : C} {j : ℕ} {g : Flight C}
    (hg : g.client ≠ c ∨ g.sent.callback ≠ .seekCb) (hold : ¬Seeks net c j) (id : ℕ) :
    Seeks (net.insert j g) c id ↔ Seeks net c id := by
  by_cases hid : id = j
  · subst hid
    refine iff_of_false ?_ hold
    intro h
    obtain ⟨f, hf, hc, hcb⟩ := h
    obtain rfl : g = f := by simpa using hf
    exact hg.elim (absurd hc) (absurd hcb)
  · simp [Seeks, hid]

theorem seeks_erase_other {net : PMap ℕ (Flight C)} {c : C} {j : ℕ} (hold : ¬Seeks net c j)
    (id : ℕ) : Seeks (net.erase j) c id ↔ Seeks net c id := by
  by_cases hid : id = j
  · subst hid
    refine iff_of_false ?_ hold
    intro h
    obtain ⟨f, hf, -⟩ := h
    simp at hf
  · simp [Seeks, hid]

/-- A flight that only changes its stage stays what it is. -/
theorem seeks_setStage {net : PMap ℕ (Flight C)} {c : C} {j : ℕ} {g : Flight C}
    (hg : net j = some g) (stage : Stage) (id : ℕ) :
    Seeks (net.insert j { g with stage := stage }) c id ↔ Seeks net c id := by
  by_cases hid : id = j
  · subst hid
    constructor
    · intro h
      obtain ⟨f, hf, hc, hcb⟩ := h
      obtain rfl := Option.some.inj (by simpa using hf)
      exact ⟨g, hg, hc, hcb⟩
    · intro h
      obtain ⟨f, hf, hc, hcb⟩ := h
      obtain rfl := Option.some.inj (hg.symm.trans hf)
      exact ⟨{ g with stage := stage }, by simp, hc, hcb⟩
  · simp [Seeks, hid]

theorem not_seeks {net : PMap ℕ (Flight C)} {c : C} {j : ℕ} {g : Flight C} (hg : net j = some g)
    (hne : g.client ≠ c ∨ g.sent.callback ≠ .seekCb) : ¬Seeks net c j := by
  intro h
  obtain ⟨f, hf, hc, hcb⟩ := h
  obtain rfl := Option.some.inj (hg.symm.trans hf)
  exact hne.elim (absurd hc) (absurd hcb)

theorem seeks_taken {w w' : World C} {id : ℕ} {f : Flight C} {r : Handled} {c : C}
    (hf : w.net id = some f) (ht : Taken w id f r w') (j : ℕ) :
    Seeks w'.net c j ↔ Seeks w.net c j := by
  cases ht with
  | aborted a => exact .rfl
  | responded srv out hcb => simpa [setServer, setFlight] using seeks_setStage hf (.reply out) j
  | pushing srv bytes hcb => exact seeks_setStage hf (.push bytes) j
  | silent srv hcb => exact seeks_erase_other (not_seeks hf (.inr (by simp [hcb]))) j

/-- A call waits in `ftc_seek_block` exactly if it has forwarded a seek request. -/
theorem started_timed {cl cl' : Client} {k : Call} {cell : Addr} {s : Sent}
    (h : Started cfg cl cell k cl' (some s)) :
    s.callback = .seekCb ∧ timed k = false ∧ cl'.seekDone = 0 ∨
      s.callback ≠ .seekCb ∧ timed k = true := by
  cases h with
  | openSent => exact .inr ⟨by simp, rfl⟩
  | transferSent k p fd buf count offset cache hk hp ho =>
    cases k <;> simp_all [timed, Call.transfer]
  | lseekSent => exact .inl ⟨rfl, rfl, rfl⟩
  | closeSent => exact .inr ⟨by simp, rfl⟩

theorem complete_seekDone {cl cl' : Client} {out : ℤ} {cb : Callback} (hcb : cb ≠ .seekCb)
    (h : cl.complete out cb = .ok cl') : cl'.seekDone = cl.seekDone := by
  cases cb with
  | seekCb => exact absurd rfl hcb
  | _ =>
    cases h
    rfl

/-- What a call leaves behind that returns at once. -/
theorem seekOk_returned {net : PMap ℕ (Flight C)} {c : C} {cl : Client} (k : Call) (ret : ℤ)
    (hb : cl.blocked = none) (hs : ∀ id, ¬Seeks net c id) :
    SeekOk net c (cl.finishCall cfg k ret).1 := by
  refine seekOk_of_none hs fun p hp ↦ ?_
  rw [finishCall_blocked, hb] at hp
  cases hp

variable [DecidableEq C]

theorem stored_kept (clients : C → Client) (memory : Memory UInt8) (c c' : C) :
    (Function.update clients c' { clients c' with memory := memory } c).blocked =
        (clients c).blocked ∧
      (Function.update clients c' { clients c' with memory := memory } c).seekDone =
        (clients c).seekDone := by
  by_cases hc : c = c'
  · subst hc
    simp
  · simp [hc]

theorem reply_seekOk {w : World C} {id : ℕ} {f : Flight C} {out : ℤ} {cl : Client}
    (h : ∀ c, SeekOk w.net c (w.clients c)) (hf : w.net id = some f)
    (hc : (w.clients f.client).complete out f.sent.callback = .ok cl) (c : C) :
    SeekOk (w.net.erase id) c (Function.update w.clients f.client cl c) := by
  by_cases hcl : c = f.client
  · subst hcl
    rw [Function.update_self]
    by_cases hcb : f.sent.callback = .seekCb
    · obtain ⟨p, hp, ht, rfl, hd⟩ := (h f.client).flight id ⟨f, hf, rfl, hcb⟩
      have hblocked : cl.blocked = some p := (complete_blocked hc).trans hp
      refine ⟨fun j hj ↦ ?_, fun q hq _ ↦ .inl ?_⟩
      · exfalso
        obtain ⟨g, hg, hgc, hgcb⟩ := hj
        by_cases hjp : j = p.request
        · simp [hjp] at hg
        · obtain ⟨q, hq, -, hqj, -⟩ := (h f.client).flight j ⟨g, by simpa [hjp] using hg, hgc, hgcb⟩
          obtain rfl := Option.some.inj (hp.symm.trans hq)
          exact hjp hqj.symm
      · rw [hcb] at hc
        cases hc
        simp [ftcSeekCb, hd]
    · exact (h f.client).congr (complete_blocked hc) (complete_seekDone hcb hc)
        (seeks_erase_other (not_seeks hf (.inr hcb)))
  · rw [Function.update_of_ne hcl]
    exact (h c).congr rfl rfl (seeks_erase_other (not_seeks hf (.inl (Ne.symm hcl))))

theorem steps_seekOk {w w' : World C} {l : Label C} (hnet : NetOk cfg w.net w.next)
    (h : ∀ c, SeekOk w.net c (w.clients c)) (hs : Steps cfg w l w') (c : C) :
    SeekOk w'.net c (w'.clients c) := by
  have hidle {c : C} (hb : (w.clients c).blocked = none) : ∀ id, ¬Seeks w.net c id :=
    (h c).none (by simp [hb])
  have hfresh (c : C) : ¬Seeks w.net c w.next := by
    simp [Seeks, hnet.fresh w.next le_rfl]
  cases hs with
  | returnNow c' k cell cl hb hs =>
    by_cases hc : c = c'
    · subst hc
      have hblocked : cl.blocked = none := (started_blocked hs).trans hb
      simpa [returned, setClient] using seekOk_returned k (-1) hblocked (hidle hb)
    · simpa [returned, setClient, hc] using h c
  | fire c' k cell cl s hb hs hcb =>
    have hsame := seeks_insert_other (c := c) (g := ⟨c', s, .request⟩) (.inr (by simp [hcb]))
      (hfresh c)
    by_cases hc : c = c'
    · subst hc
      have hblocked : cl.blocked = none := (started_blocked hs).trans hb
      have hnone (id : ℕ) : ¬Seeks (w.net.insert w.next ⟨c, s, .request⟩) c id := by
        rw [hsame]
        exact hidle hb id
      simpa [returned, setClient, post, setFlight] using seekOk_returned k 0 hblocked hnone
    · simpa [returned, setClient, post, setFlight, hc] using (h c).congr rfl rfl hsame
  | block c' k cell cl s hb hs hcb =>
    by_cases hc : c = c'
    · subst hc
      suffices SeekOk (w.net.insert w.next ⟨c, s, .request⟩) c
          { cl with blocked := some ⟨k, w.next, s.host, cell⟩ } by
        simpa [setClient, post, setFlight] using this
      obtain ⟨hseek, ht, hd⟩ | ⟨hseek, ht⟩ := started_timed hs
      · refine ⟨fun id hid ↦ ⟨_, rfl, ht, ?_, hd⟩,
          fun p hp _ ↦ .inr ⟨hd, ⟨c, s, .request⟩, ?_, rfl, hseek⟩⟩
        · by_contra hne
          refine hidle hb id ?_
          simpa [Seeks, Ne.symm hne] using hid
        · cases hp
          simp
      · refine seekOk_of_none (fun id ↦ ?_) (fun p hp ↦ ?_)
        · rw [seeks_insert_other (.inr hseek) (hfresh c)]
          exact hidle hb id
        · cases hp
          exact ht
    · have hsame := seeks_insert_other (c := c) (g := ⟨c', s, .request⟩) (.inl (Ne.symm hc))
        (hfresh c)
      simpa [setClient, post, setFlight, hc] using (h c).congr rfl rfl hsame
  | serve id env f hf hst ha =>
    rw [handled_clients]
    exact (h c).congr rfl rfl (seeks_taken hf (handled_taken w id (hnet.kind id f hf) _ env))
  | push id f bytes buf cell hf hst hcb =>
    have hsame := seeks_setStage (c := c) hf (.reply (ftcRpcHandlerBulkCb bytes))
    have hkept := stored_kept w.clients ((w.clients f.client).memory.store buf bytes) c f.client
    exact (h c).congr hkept.1 hkept.2 hsame
  | reply id f out cl hf hst hc =>
    simpa [setClient, dropFlight] using reply_seekOk h hf hc c
  | wake c' p hb hr =>
    by_cases hc : c = c'
    · subst hc
      have hnone : ∀ id, ¬Seeks w.net c id := by
        intro id hid
        obtain ⟨q, hq, ht, -, hd⟩ := (h c).flight id hid
        obtain rfl := Option.some.inj (hb.symm.trans hq)
        cases hk : p.call with
        | lseek => simp [replied, hk, hd] at hr
        | _ => simp [hk, timed] at ht
      simpa [returned, setClient] using seekOk_returned p.call _ rfl hnone
    · simpa [returned, setClient, hc] using h c
  | giveUp c' p hb ht =>
    by_cases hc : c = c'
    · subst hc
      have hnone : ∀ id, ¬Seeks w.net c id := (h c).none fun q hq ↦ by
        obtain rfl := Option.some.inj (hb.symm.trans hq)
        exact ht
      simpa [returned, setClient] using seekOk_returned p.call _ rfl hnone
    · simpa [returned, setClient, hc] using h c
  | mover h' m srv ha hm => exact h c
  | store c' a bytes hb =>
    have hkept := stored_kept w.clients ((w.clients c').memory.store a bytes) c c'
    exact (h c).congr hkept.1 hkept.2 fun _ ↦ .rfl

omit [DecidableEq C] in
theorem pushing_reads {s : Sent} (hk : Kind cfg s) {srv srv' : Server} {env : Env} {bytes : Bytes}
    (h : srv.handle s.request env = .pushing srv' bytes) :
    ∃ buf cell, s.callback = .readCb buf cell := by
  cases hk with
  | opening => cases h
  | transfer path accessfd fd buf count offset cell => exact ⟨buf, cell, rfl⟩
  | seeking => cases h
  | closing path inp =>
    obtain ⟨t, ht⟩ | ht := srv.handle_closeRpc inp env
    · cases ht.symm.trans h
    · cases ht.symm.trans h

/-- Bytes are pushed for a read only. -/
def PushesRead (net : PMap ℕ (Flight C)) : Prop :=
  ∀ id f bytes, net id = some f → f.stage = .push bytes →
    ∃ buf cell, f.sent.callback = .readCb buf cell

omit [DecidableEq C] in
theorem PushesRead.insert {net : PMap ℕ (Flight C)} (h : PushesRead net) {j : ℕ} {g : Flight C}
    (hg : ∀ bytes, g.stage = .push bytes → ∃ buf cell, g.sent.callback = .readCb buf cell) :
    PushesRead (net.insert j g) := by
  intro id f bytes hf hst
  by_cases hid : id = j
  · obtain rfl := Option.some.inj (by simpa [hid] using hf)
    exact hg bytes hst
  · exact h id f bytes (by simpa [hid] using hf) hst

omit [DecidableEq C] in
theorem PushesRead.erase {net : PMap ℕ (Flight C)} (h : PushesRead net) (j : ℕ) :
    PushesRead (net.erase j) := by
  intro id f bytes hf hst
  by_cases hid : id = j
  · simp [hid] at hf
  · exact h id f bytes (by simpa [hid] using hf) hst

theorem steps_pushesRead {w w' : World C} {l : Label C} (hnet : NetOk cfg w.net w.next)
    (h : PushesRead w.net) (hs : Steps cfg w l w') : PushesRead w'.net := by
  cases hs with
  | returnNow c k cell cl hb hs => simpa [returned, setClient] using h
  | fire c k cell cl s hb hs hcb =>
    have hpost := h.insert (j := w.next) (g := ⟨c, s, .request⟩) fun _ hst ↦ by cases hst
    simpa [returned, setClient, post, setFlight] using hpost
  | block c k cell cl s hb hs hcb =>
    have hpost := h.insert (j := w.next) (g := ⟨c, s, .request⟩) fun _ hst ↦ by cases hst
    simpa [setClient, post, setFlight] using hpost
  | serve id env f hf hst ha =>
    cases hr : (w.servers f.sent.host).handle f.sent.request env with
    | aborted a => exact h
    | responded srv out =>
      have hset := h.insert (j := id) (g := { f with stage := .reply out }) fun _ hst ↦ by cases hst
      simpa [handled, setServer, setFlight] using hset
    | pushing srv bytes =>
      exact h.insert (g := { f with stage := .push bytes })
        fun _ _ ↦ pushing_reads (hnet.kind id f hf) hr
    | silent srv => exact h.erase id
  | push id f bytes buf cell hf hst hcb => exact h.insert fun _ _ ↦ ⟨buf, cell, hcb⟩
  | reply id f out cl hf hst hc => simpa [setClient, dropFlight] using h.erase id
  | wake c p hb hr => exact h
  | giveUp c p hb ht => exact h
  | mover h' m srv ha hm => exact h
  | store c a bytes hb => exact h

/-- What holds in every run, whatever fails or times out in it. -/
structure Steady (cfg : Config) (w : World C) : Prop where
  net : NetOk cfg w.net w.next
  seeks : ∀ c, SeekOk w.net c (w.clients c)
  pushes : PushesRead w.net

theorem steps_steady {w w' : World C} {l : Label C} (h : Steady cfg w) (hs : Steps cfg w l w') :
    Steady cfg w' :=
  ⟨steps_net h.net hs, steps_seekOk h.net h.seeks hs, steps_pushesRead h.net h.pushes hs⟩

omit [DecidableEq C] in
theorem start_steady (job : Job) (C : Type) : Steady job.cfg (job.start C) := by
  refine ⟨start_net job C, fun c ↦ seekOk_of_none ?_ ?_, ?_⟩
  · simp [Seeks, Job.start]
  · simp [Job.start]
  · simp [PushesRead, Job.start]

theorem reach_steady {job : Job} {w : World C}
    (h : Reach (World.step job.cfg) (fun _ _ ↦ True) (job.start C) w) : Steady job.cfg w :=
  h.invariant (Steady job.cfg) (start_steady job C) fun _ _ _ hb _ hc ↦
    steps_steady hb (step_steps hc)

/-- The call waits in `ftc_seek_block`, which has no time limit, and its server stopped
before it took the request up. -/
structure Hung (w : World C) (c : C) (p : Pending) (f : Flight C) : Prop where
  blocked : (w.clients c).blocked = some p
  untimed : timed p.call = false
  flight : w.net p.request = some f ∧ f.client = c ∧ f.sent.callback = .seekCb
  unserved : f.stage = .request ∧ (w.servers f.sent.host).aborted = true

theorem steps_stopped {w w' : World C} {l : Label C} (hs : Steps cfg w l w') {h : Host}
    (hab : (w.servers h).aborted = true) : (w'.servers h).aborted = true := by
  cases hs with
  | returnNow c k cell cl hb hs => simpa [returned, setClient] using hab
  | fire c k cell cl s hb hs hcb => simpa [returned, setClient, post, setFlight] using hab
  | block c k cell cl s hb hs hcb => simpa [setClient, post, setFlight] using hab
  | serve id env f hf hst ha =>
    have hne : h ≠ f.sent.host := fun he ↦ by
      rw [he, ha] at hab
      cases hab
    simpa [handled_servers, hne] using hab
  | push id f bytes buf cell hf hst hcb => exact hab
  | reply id f out cl hf hst hc => simpa [setClient, dropFlight] using hab
  | wake c p hb hr => exact hab
  | giveUp c p hb ht => exact hab
  | mover h' m srv ha hm =>
    have hne : h ≠ h' := fun he ↦ by
      rw [he, ha] at hab
      cases hab
    simpa [setServer, hne] using hab
  | store c a bytes hb => exact hab

/-- Nobody takes up the request of a hung call. -/
theorem Hung.net_kept {w w' : World C} {l : Label C} {c : C} {p : Pending} {f : Flight C}
    (h : Hung w c p f) (hnet : NetOk cfg w.net w.next) (hs : Steps cfg w l w') :
    w'.net p.request = some f := by
  obtain ⟨hf, -, hcb⟩ := h.flight
  obtain ⟨hst, hab⟩ := h.unserved
  have hold {j : ℕ} {g : Flight C} (hg : w.net j = some g) (hne : g.stage ≠ .request) :
      p.request ≠ j := by
    intro he
    rw [he] at hf
    obtain rfl := Option.some.inj (hg.symm.trans hf)
    exact hne hst
  have hnext : p.request ≠ w.next := (hnet.lt hf).ne
  cases hs with
  | returnNow c' k cell cl hb hs => simpa [returned, setClient] using hf
  | fire c' k cell cl s hb hs hcb => simpa [returned, setClient, post, setFlight, hnext] using hf
  | block c' k cell cl s hb hs hcb => simpa [setClient, post, setFlight, hnext] using hf
  | serve id env g hg hgst ha =>
    have hne : p.request ≠ id := by
      intro he
      rw [he] at hf
      obtain rfl := Option.some.inj (hg.symm.trans hf)
      rw [ha] at hab
      cases hab
    rw [handled_net _ _ _ hne]
    exact hf
  | push id g bytes buf cell hg hgst hgcb =>
    have hne := hold hg (by simp [hgst])
    simpa [setClient, setFlight, hne] using hf
  | reply id g out cl hg hgst hc =>
    have hne := hold hg (by simp [hgst])
    simpa [setClient, dropFlight, hne] using hf
  | wake c' q hb hr => exact hf
  | giveUp c' q hb ht => exact hf
  | mover h' m srv ha hm => exact hf
  | store c' a bytes hb => exact hf

theorem Hung.blocked_kept {w w' : World C} {l : Label C} {c : C} {p : Pending} {f : Flight C}
    (h : Hung w c p f) (hok : SeekOk w.net c (w.clients c)) (hs : Steps cfg w l w') :
    (w'.clients c).blocked = some p := by
  have hbusy {c' : C} (hb : (w.clients c').blocked = none) : c ≠ c' := by
    intro he
    rw [← he, h.blocked] at hb
    cases hb
  cases hs with
  | returnNow c' k cell cl hb hs =>
    simpa [returned, setClient, hbusy hb] using h.blocked
  | fire c' k cell cl s hb hs hcb =>
    simpa [returned, setClient, post, setFlight, hbusy hb] using h.blocked
  | block c' k cell cl s hb hs hcb =>
    simpa [setClient, post, setFlight, hbusy hb] using h.blocked
  | serve id env g hg hgst ha =>
    rw [handled_clients]
    exact h.blocked
  | push id g bytes buf cell hg hgst hgcb =>
    exact (stored_kept w.clients _ c g.client).1.trans h.blocked
  | reply id g out cl hg hgst hc =>
    have hkept := update_kept Client.blocked (complete_blocked hc) c
    simpa [setClient, dropFlight, hkept] using h.blocked
  | wake c' q hb hr =>
    have hne : c ≠ c' := by
      intro he
      subst he
      obtain rfl := Option.some.inj (h.blocked.symm.trans hb)
      obtain ⟨-, -, -, -, hd⟩ := hok.flight p.request ⟨f, h.flight⟩
      have ht := h.untimed
      cases hk : p.call with
      | lseek => simp [replied, hk, hd] at hr
      | _ => simp [hk, timed] at ht
    simpa [returned, setClient, hne] using h.blocked
  | giveUp c' q hb ht =>
    have hne : c ≠ c' := by
      intro he
      subst he
      obtain rfl := Option.some.inj (h.blocked.symm.trans hb)
      rw [h.untimed] at ht
      cases ht
    simpa [returned, setClient, hne] using h.blocked
  | mover h' m srv ha hm => exact h.blocked
  | store c' a bytes hb => exact (stored_kept w.clients _ c c').1.trans h.blocked

/-- A hung call stays hung. -/
theorem Hung.step {w w' : World C} {l : Label C} {c : C} {p : Pending} {f : Flight C}
    (h : Hung w c p f) (hw : Steady cfg w) (hs : Steps cfg w l w') : Hung w' c p f where
  blocked := h.blocked_kept (hw.seeks c) hs
  untimed := h.untimed
  flight := ⟨h.net_kept hw.net hs, h.flight.2⟩
  unserved := ⟨h.unserved.1, steps_stopped hs h.unserved.2⟩

/-- At most `n` steps bring the call to its end. -/
def ReturnsWithin (cfg : Config) (n : ℕ) (w : World C) (c : C) (p : Pending) : Prop :=
  ∃ ls w' r, ls.length ≤ n ∧ exec (World.step cfg) w ls = some w' ∧
    (w'.clients c).blocked = none ∧ w'.hist.trace c = w.hist.trace c ++ [(p.call, r)]

theorem ReturnsWithin.of_step {n : ℕ} {w w' : World C} {c : C} {p : Pending} {l : Label C}
    (hs : World.step cfg w l = some w') (htrace : w'.hist.trace = w.hist.trace)
    (h : ReturnsWithin cfg n w' c p) : ReturnsWithin cfg (n + 1) w c p := by
  obtain ⟨ls, v, r, hlen, hv, hb, ht⟩ := h
  exact ⟨l :: ls, v, r, Nat.succ_le_succ hlen, by simp [exec, hs, hv], hb, by rw [ht, htrace]⟩

theorem ReturnsWithin.mono {m n : ℕ} {w : World C} {c : C} {p : Pending}
    (h : ReturnsWithin cfg m w c p) (hmn : m ≤ n) : ReturnsWithin cfg n w c p := by
  obtain ⟨ls, v, r, hlen, hv⟩ := h
  exact ⟨ls, v, r, hlen.trans hmn, hv⟩

theorem returns_timed {w : World C} {c : C} {p : Pending}
    (hb : (w.clients c).blocked = some p) (ht : timed p.call = true) :
    ReturnsWithin cfg 1 w c p := by
  have hs : World.step cfg w (.giveUp c) = some (w.returned c p.call
      (({ w.clients c with blocked := none }.timeOut p.host).finishCall cfg p.call (-1))) := by
    simp [World.step, World.giveUp, hb, ht]
  refine ⟨[.giveUp c], _, _, le_rfl, by simp [exec, hs]; rfl, ?_, by simp [returned]; rfl⟩
  simp [returned, setClient, finishCall_blocked, timeOut]

theorem returns_replied {w : World C} {c : C} {p : Pending}
    (hb : (w.clients c).blocked = some p) (hr : (w.clients c).replied p = true) :
    ReturnsWithin cfg 1 w c p := by
  have hs : World.step cfg w (.wake c) = some (w.returned c p.call
      ({ w.clients c with blocked := none }.finishCall cfg p.call
        ((w.clients c).remoteValue p))) := by
    simp [World.step, World.wake, hb, hr]
  refine ⟨[.wake c], _, _, le_rfl, by simp [exec, hs]; rfl, ?_, by simp [returned]; rfl⟩
  simp [returned, setClient, finishCall_blocked]

omit [DecidableEq C] in
theorem replied_of_done {cl : Client} {p : Pending} (ht : timed p.call = false)
    (hd : cl.seekDone = 1) : cl.replied p = true := by
  cases hk : p.call with
  | lseek => simp [replied, hk, hd]
  | _ => simp [hk, timed] at ht

theorem returns_reply {w : World C} {c : C} {p : Pending} {f : Flight C} {out : ℤ}
    (hb : (w.clients c).blocked = some p) (ht : timed p.call = false)
    (hf : w.net p.request = some f) (hc : f.client = c) (hcb : f.sent.callback = .seekCb)
    (hd : (w.clients c).seekDone = 0) (hst : f.stage = .reply out) :
    ReturnsWithin cfg 2 w c p := by
  subst hc
  obtain ⟨w', hs, hw'⟩ : ∃ w', World.step cfg w (.reply p.request) = some w' ∧
      w' = (w.setClient f.client ((w.clients f.client).ftcSeekCb out)).dropFlight p.request := by
    refine ⟨_, ?_, rfl⟩
    simp only [World.step, World.reply, hf, Option.bind_some, hst, hcb]
    rfl
  refine .of_step hs (by simp [hw', setClient, dropFlight]) (returns_replied ?_ ?_)
  · simp [hw', setClient, dropFlight, ftcSeekCb, hb]
  · refine replied_of_done ht ?_
    simp [hw', setClient, dropFlight, ftcSeekCb, hd]

theorem returns_request {w : World C} (hnet : NetOk cfg w.net w.next) {c : C} {p : Pending}
    {f : Flight C} (hb : (w.clients c).blocked = some p) (ht : timed p.call = false)
    (hf : w.net p.request = some f) (hc : f.client = c) (hcb : f.sent.callback = .seekCb)
    (hd : (w.clients c).seekDone = 0) (hst : f.stage = .request)
    (hrun : (w.servers f.sent.host).aborted = false) : ReturnsWithin cfg 3 w c p := by
  subst hc
  obtain ⟨inp, hreq⟩ : ∃ inp, f.sent.request = .seekRpc inp := by
    have hk := hnet.kind p.request f hf
    revert hcb
    generalize f.sent = sent at hk
    intro hcb
    cases hk with
    | seeking path inp => exact ⟨inp, rfl⟩
    | opening => cases hcb
    | transfer => cases hcb
    | closing => cases hcb
  obtain ⟨srv, out, hh⟩ : ∃ srv out,
      (w.servers f.sent.host).handle f.sent.request {} = .responded srv out := by
    rw [hreq]
    exact ⟨_, _, rfl⟩
  have hs : World.step cfg w (.serve p.request {}) =
      some (w.handled p.request f (.responded srv out)) := by
    simp [World.step, World.serve, hf, hst, hrun, hh]
  have hclients := congrFun (handled_clients w p.request f (.responded srv out)) f.client
  refine .of_step hs (handled_trace ..) (returns_reply (f := { f with stage := .reply out })
    (by rw [hclients]; exact hb) ht ?_ rfl hcb (by rw [hclients]; exact hd) rfl)
  simp [handled, setServer, setFlight]

/-- Whatever fails and times out, a blocked call can return within three further steps,
unless it is a seek whose server stopped before it took the request up: it never returns. -/
theorem blocked_returns_or_hangs {job : Job} {w : World C}
    (h : Reach (World.step job.cfg) (fun _ _ ↦ True) (job.start C) w) {c : C} {p : Pending}
    (hb : (w.clients c).blocked = some p) :
    ((∃ f, Hung w c p f) ∧ ∀ w', Reach (World.step job.cfg) (fun _ _ ↦ True) w w' →
      (w'.clients c).blocked = some p) ∨
    ((¬∃ f, Hung w c p f) ∧ ReturnsWithin job.cfg 3 w c p) := by
  have hw := reach_steady h
  by_cases hhung : ∃ f, Hung w c p f
  · refine .inl ⟨hhung, fun w' h' ↦ ?_⟩
    obtain ⟨f, hf⟩ := hhung
    have hkept := h'.invariant (fun v ↦ Steady job.cfg v ∧ Hung v c p f) ⟨hw, hf⟩
      fun _ _ _ hv _ hs ↦ ⟨steps_steady hv.1 (step_steps hs), hv.2.step hv.1 (step_steps hs)⟩
    exact hkept.2.blocked
  · refine .inr ⟨hhung, ?_⟩
    cases ht : timed p.call with
    | true => exact (returns_timed hb ht).mono (by omega)
    | false =>
      obtain hd | ⟨hd, f, hf, hc, hcb⟩ := (hw.seeks c).waits p hb ht
      · exact (returns_replied hb (replied_of_done ht hd)).mono (by omega)
      · cases hst : f.stage with
        | push bytes =>
          obtain ⟨buf, cell, hread⟩ := hw.pushes _ _ _ hf hst
          rw [hcb] at hread
          cases hread
        | reply out => exact (returns_reply hb ht hf hc hcb hd hst).mono (by omega)
        | request =>
          cases hab : (w.servers f.sent.host).aborted with
          | false => exact returns_request hw.net hb ht hf hc hcb hd hst hab
          | true => exact absurd ⟨f, hb, ht, ⟨hf, hc, hcb⟩, hst, hab⟩ hhung

/-- A server that could not open a file stops when it is closed; another client then seeks. -/
theorem blocked_returns_or_hangs_seek : ∃ (w : World Bool) (p : Pending),
    ((w.clients true).blocked = some p ∧ (w.servers 0).aborted = true) ∧
    (((∃ f, Hung w true p f) ∧ ∀ w', Reach (World.step sampleJob.cfg) (fun _ _ ↦ True) w w' →
      (w'.clients true).blocked = some p) ∨
    ((¬∃ f, Hung w true p f) ∧ ReturnsWithin sampleJob.cfg 3 w true p)) := by
  obtain ⟨w, hreach, hb, hab⟩ : ∃ w, Reach (World.step sampleJob.cfg) (fun _ _ ↦ True)
      (sampleJob.start Bool) w ∧
      (w.clients true).blocked = some ⟨.lseek 3 0 0, 3, 0, 8⟩ ∧ (w.servers 0).aborted = true :=
    Reach.exists_of_exec [.call true (.openFile samplePath 0 3) 8, .serve 0 { opened := some 7 },
      .reply 0, .wake true, .call false (.openFile samplePath 0 3) 8, .serve 1 {}, .reply 1,
      .wake false, .call false (.close 3) 8, .serve 2 {}, .call true (.lseek 3 0 0) 8]
      (by decide +kernel) (by decide +kernel)
  exact ⟨w, _, ⟨hb, hab⟩, blocked_returns_or_hangs hreach hb⟩

end FTCache.Stalls
