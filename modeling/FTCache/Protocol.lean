import FTCache.Flights

namespace FTCache.Protocol

open Runs Posix World Client Flights

variable {C : Type} {cfg : Config}

/-- No wait times out. -/
def Patient (_ : World C) (l : Label C) : Prop := l.timesOut = false

instance (w : World C) (l : Label C) : Decidable (Patient w l) :=
  inferInstanceAs (Decidable (l.timesOut = false))

def opens : Call → Fd → Prop
  | .openFile _ _ j, fd => j = fd
  | _, _ => False

theorem not_opens_of_transfer {k : Call} {fd : Fd} {buf : Addr} {count : ℕ} {offset : ℤ}
    (hk : k.transfer = some (fd, buf, count, offset)) (j : Fd) : ¬opens k j := by
  cases k <;> simp_all [Call.transfer, opens]

/-- The request a blocked call has forwarded. -/
def sentFor (cfg : Config) (cl : Client) (p : Pending) (path : Path) : Sent :=
  match p.call with
  | .openFile _ _ fd => ⟨cfg.host path, path, .openRpc ⟨path, fd⟩, .openCb fd p.cell⟩
  | .read fd buf count => ⟨cfg.host path, path,
      .baseRpc (transferIn (cl.fdRedirMap.index fd) fd count (-1)), .readCb buf p.cell⟩
  | .pread fd buf count offset => ⟨cfg.host path, path,
      .baseRpc (transferIn (cl.fdRedirMap.index fd) fd count offset), .readCb buf p.cell⟩
  | .lseek fd offset whence => ⟨cfg.host path, path,
      .seekRpc ⟨cl.fdRedirMap.index fd, Words.int32 offset, whence⟩, .seekCb⟩
  | .close fd => ⟨cfg.host path, path, .closeRpc ⟨cl.fdRedirMap.index fd⟩, .none⟩

/-- The flight of client `c` that has a callback waiting for its reply. -/
def Waited (net : PMap ℕ (Flight C)) (c : C) (id : ℕ) (f : Flight C) : Prop :=
  net id = some f ∧ f.client = c ∧ f.sent.callback ≠ .none

/-- No reply is outstanding, and every tracked descriptor has its server descriptor. -/
structure Quiet (net : PMap ℕ (Flight C)) (c : C) (cl : Client) : Prop where
  noFlight : ∀ id f, ¬Waited net c id f
  complete : ∀ fd, (cl.fdMap fd).isSome → (cl.fdRedirMap fd).isSome
  answered : ∀ p, cl.blocked = some p →
    cl.replied p = true ∧ (cl.fdMap p.call.fd).isSome ∧ ∀ fd, p.call ≠ .close fd

/-- The client is blocked in `p`, whose request `f` is the only one outstanding. -/
structure Awaiting (cfg : Config) (net : PMap ℕ (Flight C)) (c : C) (cl : Client)
    (p : Pending) (f : Flight C) : Prop where
  blocked : cl.blocked = some p
  waited : Waited net c p.request f
  only : ∀ id g, Waited net c id g → id = p.request
  silent : cl.replied p = false
  seek : timed p.call = false → cl.seekDone = 0
  sent : ∃ path, cl.fdMap p.call.fd = some path ∧ f.sent = sentFor cfg cl p path
  complete : ∀ fd, (cl.fdMap fd).isSome → ((cl.fdRedirMap fd).isSome ↔ ¬opens p.call fd)

structure ClientOk (cfg : Config) (net : PMap ℕ (Flight C)) (c : C) (cl : Client) : Prop where
  counters : ∀ h, cl.timeoutCounters h = 0
  tracked : ∀ fd path, cl.fdMap fd = some path →
    (cl.kernel fd).map Description.file = some path ∧ (cfg.files path).isSome
  redir : ∀ fd, (cl.fdRedirMap fd).isSome → (cl.fdMap fd).isSome
  status : Quiet net c cl ∨ ∃ p f, Awaiting cfg net c cl p f

/-- Clients and network in runs without timeouts, whatever the servers do. -/
structure Ok (cfg : Config) (w : World C) : Prop where
  net : NetOk cfg w.net w.next
  clients : ∀ c, ClientOk cfg w.net c (w.clients c)

/-- A client's condition depends on its own outstanding requests only. -/
theorem ClientOk.frame {net net' : PMap ℕ (Flight C)} {c : C} {cl : Client}
    (h : ClientOk cfg net c cl) (hn : ∀ id f, Waited net' c id f ↔ Waited net c id f) :
    ClientOk cfg net' c cl := by
  refine ⟨h.counters, h.tracked, h.redir, ?_⟩
  rcases h.status with hq | ⟨p, f, ha⟩
  · exact .inl ⟨fun id f hf ↦ hq.noFlight id f ((hn id f).mp hf), hq.complete, hq.answered⟩
  · exact .inr ⟨p, f, ha.blocked, (hn _ _).mpr ha.waited,
      fun id g hg ↦ ha.only id g ((hn id g).mp hg), ha.silent, ha.seek, ha.sent, ha.complete⟩

theorem overLimit_false {net : PMap ℕ (Flight C)} {c : C} {cl : Client}
    (h : ClientOk cfg net c cl) (host : Host) : ¬cl.overLimit host := by
  simp [overLimit, timeoutLimit, h.counters]

theorem untracked_of_overLimit {net : PMap ℕ (Flight C)} {c : C} {cl : Client} {fd : Fd}
    (h : ClientOk cfg net c cl) (hl : ∀ p, cl.fdMap fd = some p → cl.overLimit (cfg.host p)) :
    cl.fdMap fd = none := by
  cases hp : cl.fdMap fd with
  | none => rfl
  | some p => exact absurd (hl p hp) (overLimit_false h _)

theorem quiet_of_unblocked {net : PMap ℕ (Flight C)} {c : C} {cl : Client}
    (h : ClientOk cfg net c cl) (hb : cl.blocked = none) : Quiet net c cl := by
  rcases h.status with hq | ⟨p, f, ha⟩
  · exact hq
  · simp [ha.blocked] at hb

theorem awaiting_of_flight {w : World C} (h : Ok cfg w) {id : ℕ} {f : Flight C}
    (hf : w.net id = some f) (hcb : f.sent.callback ≠ .none) :
    ∃ p, p.request = id ∧ Awaiting cfg w.net f.client (w.clients f.client) p f := by
  rcases (h.clients f.client).status with hq | ⟨p, g, ha⟩
  · exact absurd ⟨hf, rfl, hcb⟩ (hq.noFlight id f)
  · have hid := ha.only id f ⟨hf, rfl, hcb⟩
    subst hid
    obtain rfl : f = g := Option.some.inj (hf.symm.trans ha.waited.1)
    exact ⟨p, rfl, ha⟩

/-- The request of a blocked call, with the server descriptor it carries. -/
inductive Asks (cfg : Config) (cl : Client) (p : Pending) (path : Path) (sent : Sent) : Prop
  | opening (pathname : Path) (flags : BitVec 32) (fd : Fd)
      (hk : p.call = .openFile pathname flags fd)
      (hs : sent = ⟨cfg.host path, path, .openRpc ⟨path, fd⟩, .openCb fd p.cell⟩)
  | transfer (fd s : Fd) (buf : Addr) (count : ℕ) (offset : ℤ)
      (hk : p.call.transfer = some (fd, buf, count, offset)) (hr : cl.fdRedirMap fd = some s)
      (hs : sent = ⟨cfg.host path, path, .baseRpc (transferIn s fd count offset),
        .readCb buf p.cell⟩)
  | seeking (fd s offset whence : ℤ) (hk : p.call = .lseek fd offset whence)
      (hr : cl.fdRedirMap fd = some s)
      (hs : sent = ⟨cfg.host path, path, .seekRpc ⟨s, Words.int32 offset, whence⟩, .seekCb⟩)

theorem Awaiting.asks {net : PMap ℕ (Flight C)} {c : C} {cl : Client} {p : Pending} {f : Flight C}
    (h : Awaiting cfg net c cl p f) :
    ∃ path, cl.fdMap p.call.fd = some path ∧ Asks cfg cl p path f.sent := by
  obtain ⟨path, hpath, hsent⟩ := h.sent
  have hcb := h.waited.2.2
  have hredir := (h.complete p.call.fd (by simp [hpath])).mpr
  refine ⟨path, hpath, ?_⟩
  cases hk : p.call with
  | openFile pathname flags fd => exact .opening pathname flags fd hk (by simp [hsent, sentFor, hk])
  | read fd buf count =>
    obtain ⟨s, hs⟩ := Option.isSome_iff_exists.mp (hredir (by simp [hk, opens]))
    rw [hk, Call.fd] at hs
    exact .transfer fd s buf count (-1) (by simp [hk, Call.transfer]) hs
      (by simp [hsent, sentFor, hk, PMap.index_of_some hs])
  | pread fd buf count offset =>
    obtain ⟨s, hs⟩ := Option.isSome_iff_exists.mp (hredir (by simp [hk, opens]))
    rw [hk, Call.fd] at hs
    exact .transfer fd s buf count offset (by simp [hk, Call.transfer]) hs
      (by simp [hsent, sentFor, hk, PMap.index_of_some hs])
  | lseek fd offset whence =>
    obtain ⟨s, hs⟩ := Option.isSome_iff_exists.mp (hredir (by simp [hk, opens]))
    rw [hk, Call.fd] at hs
    exact .seeking fd s offset whence hk hs (by simp [hsent, sentFor, hk, PMap.index_of_some hs])
  | close fd => simp [hsent, sentFor, hk] at hcb

theorem untracked_of_granted {net : PMap ℕ (Flight C)} {c : C} {cl : Client}
    (h : ClientOk cfg net c cl) {p : Path} {fd : Fd}
    (hg : Grants cfg.files cl.kernel p fd) : cl.fdMap fd = none ∧ cl.fdRedirMap fd = none := by
  have hm : cl.fdMap fd = none := by
    cases hp : cl.fdMap fd with
    | none => rfl
    | some q =>
      have ht := (h.tracked fd q hp).1
      simp [hg.2.2] at ht
  refine ⟨hm, ?_⟩
  cases hr : cl.fdRedirMap fd with
  | none => rfl
  | some s =>
    have hs := h.redir fd (by simp [hr])
    simp [hm] at hs

theorem finish_ok {net : PMap ℕ (Flight C)} {c : C} {cl : Client} (h : ClientOk cfg net c cl)
    (hb : cl.blocked = none) (k : Call) (ret : ℤ) (hk : ∀ fd, k = .close fd → cl.fdMap fd = none) :
    ClientOk cfg net c (cl.finishCall cfg k ret).1 := by
  obtain ⟨kernel, memory, he, hkernel⟩ := finishCall_shape cfg cl k ret
  rw [he]
  have hq := quiet_of_unblocked h hb
  refine ⟨h.counters, fun fd path hp ↦ ?_, h.redir, .inl ⟨hq.noFlight, hq.complete, ?_⟩⟩
  · have hne : k ≠ .close fd := fun hc ↦ by simp [hk fd hc] at hp
    rw [hkernel fd, if_neg hne]
    exact h.tracked fd path hp
  · simp [hb]

theorem started_none_ok {net : PMap ℕ (Flight C)} {c : C} {cl cl' : Client} {k : Call}
    {cell : Addr} (h : ClientOk cfg net c cl) (hb : cl.blocked = none)
    (hs : Started cfg cl cell k cl' none) :
    ClientOk cfg net c cl' ∧ cl'.blocked = none ∧ ∀ fd, k = .close fd → cl'.fdMap fd = none := by
  have hq := quiet_of_unblocked h hb
  cases hs with
  | openUntracked path p flags fd hp hg ht =>
    refine ⟨⟨h.counters, fun j q hj ↦ ?_, h.redir, .inl ⟨hq.noFlight, hq.complete, ?_⟩⟩, hb,
      by simp⟩
    · have hne : j ≠ fd := by
        intro heq
        subst heq
        simp [(untracked_of_granted h hg).1] at hj
      simpa [hne] using h.tracked j q hj
    · simp [hb]
  | openOver path p flags fd hp hg ht ho => exact absurd ho (overLimit_false h _)
  | transferLocal k fd buf count offset hk hl =>
    exact ⟨h, hb, by rintro j rfl; simp [Call.transfer] at hk⟩
  | lseekLocal fd offset whence hp => exact ⟨h, hb, by simp⟩
  | closeLocal fd hl =>
    have hnone := untracked_of_overLimit h hl
    have he : cl.fdMap.erase fd = cl.fdMap := by
      funext j
      by_cases hj : j = fd <;> simp [hj, hnone]
    refine ⟨?_, hb, by simp⟩
    simpa only [he] using h

theorem waited_post {net : PMap ℕ (Flight C)} {c : C} (id : ℕ) {s : Sent}
    (hq : ∀ j f, ¬Waited net c j f) (hcb : s.callback ≠ .none) :
    Waited (net.insert id ⟨c, s, .request⟩) c id ⟨c, s, .request⟩ ∧
      ∀ j g, Waited (net.insert id ⟨c, s, .request⟩) c j g → j = id := by
  refine ⟨⟨by simp, rfl, hcb⟩, fun j g hg ↦ ?_⟩
  by_contra hne
  exact hq j g ⟨by simpa [hne] using hg.1, hg.2⟩

theorem started_some_ok {net : PMap ℕ (Flight C)} {c : C} {cl cl' : Client} {k : Call}
    {cell : Addr} {s : Sent} {id : ℕ} (h : ClientOk cfg net c cl) (hb : cl.blocked = none)
    (hs : Started cfg cl cell k cl' (some s)) (hcb : s.callback ≠ .none) :
    ClientOk cfg (net.insert id ⟨c, s, .request⟩) c
      { cl' with blocked := some ⟨k, id, s.host, cell⟩ } := by
  have hq := quiet_of_unblocked h hb
  obtain ⟨hw, honly⟩ := waited_post id hq.noFlight hcb
  cases hs with
  | openSent path p flags fd cache hp hg ht ho =>
    obtain ⟨hm, hr⟩ := untracked_of_granted h hg
    refine ⟨h.counters, fun j q hj ↦ ?_, fun j hj ↦ ?_,
      .inr ⟨_, _, rfl, hw, honly, ?_, ?_, ?_, ?_⟩⟩
    · by_cases hne : j = fd
      · subst j
        obtain rfl : p = q := by simpa using hj
        exact ⟨by simp, hg.1⟩
      · simpa [hne] using h.tracked j q (by simpa [hne] using hj)
    · have hne : j ≠ fd := by
        intro he
        subst he
        simp [hr] at hj
      simpa [hne] using h.redir j hj
    · simp [replied]
    · simp [timed]
    · exact ⟨p, by simp [Call.fd], by simp [sentFor]⟩
    · intro j hj
      by_cases hne : j = fd
      · simp [hne, hr, opens]
      · have hj' : (cl.fdMap j).isSome := by simpa [hne] using hj
        simp [hq.complete j hj', opens, Ne.symm hne]
  | transferSent k p fd buf count offset cache hk hp ho =>
    have hr := hq.complete fd (by simp [hp])
    obtain ⟨srv, hsrv⟩ := Option.isSome_iff_exists.mp hr
    have hfd : k.fd = fd ∧ ∀ j, ¬opens k j :=
      ⟨Call.fd_of_transfer hk, not_opens_of_transfer hk⟩
    refine ⟨h.counters, h.tracked, fun j hj ↦ ?_,
      .inr ⟨_, _, rfl, hw, honly, ?_, ?_, ?_, ?_⟩⟩
    · rw [PMap.touch_of_some hsrv] at hj
      exact h.redir j hj
    · cases k <;> simp_all [replied, Call.transfer]
    · cases k <;> simp_all [timed, Call.transfer]
    · refine ⟨p, by simpa [hfd.1] using hp, ?_⟩
      cases k <;> simp_all [Call.transfer, sentFor, PMap.touch_of_some hsrv]
    · intro j hj
      simp only [PMap.touch_of_some hsrv, hfd.2, hq.complete j hj, not_false_eq_true]
  | lseekSent p fd offset whence cache hp =>
    have hr := hq.complete fd (by simp [hp])
    obtain ⟨srv, hsrv⟩ := Option.isSome_iff_exists.mp hr
    refine ⟨h.counters, h.tracked, fun j hj ↦ ?_,
      .inr ⟨_, _, rfl, hw, honly, ?_, ?_, ?_, ?_⟩⟩
    · rw [PMap.touch_of_some hsrv] at hj
      exact h.redir j hj
    · simp [replied]
    · simp
    · exact ⟨p, by simpa [Call.fd] using hp, by simp [sentFor, PMap.touch_of_some hsrv]⟩
    · intro j hj
      simp only [PMap.touch_of_some hsrv, opens, hq.complete j hj, not_false_eq_true]
  | closeSent p fd cache hp ho => exact absurd rfl hcb

end FTCache.Protocol
