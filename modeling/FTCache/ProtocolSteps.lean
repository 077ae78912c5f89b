import FTCache.Library.Runs
import FTCache.Protocol

namespace FTCache.Protocol

open Runs Posix World Client Flights

variable {C : Type} {cfg : Config}

theorem Ok.congr {w w' : World C} (h : Ok cfg w) (hc : w'.clients = w.clients)
    (hn : w'.net = w.net) (hx : w'.next = w.next) : Ok cfg w' := by
  refine ⟨?_, fun c ↦ ?_⟩
  · rw [hn, hx]
    exact h.net
  · rw [hn, hc]
    exact h.clients c

theorem Ok.of_client {w w' : World C} (h : Ok cfg w) (c : C) (hnet : NetOk cfg w'.net w'.next)
    (hok : ClientOk cfg w'.net c (w'.clients c))
    (hc : ∀ c', c' ≠ c → w'.clients c' = w.clients c')
    (hw : ∀ c', c' ≠ c → ∀ id f, Waited w'.net c' id f ↔ Waited w.net c' id f) : Ok cfg w' := by
  refine ⟨hnet, fun c' ↦ ?_⟩
  by_cases he : c' = c
  · subst c'
    exact hok
  · rw [hc c' he]
    exact (h.clients c').frame (hw c' he)

theorem waited_insert_other {net : PMap ℕ (Flight C)} {id : ℕ} {f : Flight C} {c' : C}
    (hc : c' ≠ f.client) (hold : ∀ g, net id = some g → g.client = f.client) (j : ℕ)
    (g : Flight C) : Waited (net.insert id f) c' j g ↔ Waited net c' j g := by
  unfold Waited
  by_cases hj : j = id
  · subst j
    constructor
    · intro h
      obtain ⟨he, rfl, -⟩ := h
      simp only [PMap.insert_apply, ↓reduceIte, Option.some.injEq] at he
      exact absurd (congrArg Flight.client he).symm hc
    · intro h
      obtain ⟨he, rfl, -⟩ := h
      exact absurd (hold g he) hc
  · simp [hj]

/-- Requests without a callback are nobody's to wait for. -/
theorem waited_insert_silent {net : PMap ℕ (Flight C)} {id : ℕ} {f : Flight C}
    (hcb : f.sent.callback = .none) (hold : net id = none) (c : C) (j : ℕ) (g : Flight C) :
    Waited (net.insert id f) c j g ↔ Waited net c j g := by
  unfold Waited
  by_cases hj : j = id
  · subst j
    simp only [PMap.insert_apply, ↓reduceIte, Option.some.injEq, hold]
    constructor
    · intro h
      obtain ⟨rfl, -, hne⟩ := h
      exact absurd hcb hne
    · intro h
      obtain ⟨he, -, -⟩ := h
      cases he
  · simp [hj]

theorem waited_erase {net : PMap ℕ (Flight C)} {id : ℕ} {c : C}
    (hold : ∀ g, ¬Waited net c id g) (j : ℕ) (g : Flight C) :
    Waited (net.erase id) c j g ↔ Waited net c j g := by
  unfold Waited at *
  by_cases hj : j = id
  · subst j
    simpa using hold g
  · simp [hj]

/-- An outstanding request moves on; its client may have its memory written. -/
theorem setStage_ok {w w' : World C} (h : Ok cfg w) {id : ℕ} {f : Flight C}
    (hf : w.net id = some f) (hcb : f.sent.callback ≠ .none) (stage : Stage)
    (memory : Memory UInt8)
    (hcl : w'.clients f.client = { w.clients f.client with memory := memory })
    (hc : ∀ c', c' ≠ f.client → w'.clients c' = w.clients c')
    (hn : w'.net = w.net.insert id { f with stage := stage }) (hx : w'.next = w.next) :
    Ok cfg w' := by
  obtain ⟨p, hp, ha⟩ := awaiting_of_flight h hf hcb
  subst hp
  refine h.of_client f.client ?_ ?_ hc fun c' hc' j g ↦ ?_
  · rw [hn, hx]
    exact setStage_net h.net hf hcb stage
  · rw [hn, hcl]
    have hok := h.clients f.client
    refine ⟨hok.counters, hok.tracked, hok.redir, .inr ⟨p, { f with stage := stage }, ha.blocked,
      ⟨by simp, rfl, hcb⟩, fun j g hg ↦ ?_, ha.silent, ha.seek, ha.sent, ha.complete⟩⟩
    by_contra hne
    exact hne (ha.only j g ⟨by simpa [hne] using hg.1, hg.2⟩)
  · rw [hn]
    refine waited_insert_other (f := { f with stage := stage }) hc' (fun g hg ↦ ?_) j g
    obtain rfl := Option.some.inj (hf.symm.trans hg)
    rfl

theorem waited_taken {w w' : World C} {id : ℕ} {f : Flight C} {r : Handled} {c : C}
    (hf : w.net id = some f) (hc : c ≠ f.client ∨ f.sent.callback = .none)
    (ht : Taken w id f r w') (j : ℕ) (g : Flight C) :
    Waited w'.net c j g ↔ Waited w.net c j g := by
  have hold (g : Flight C) (hg : w.net id = some g) : f = g := Option.some.inj (hf.symm.trans hg)
  have hother (hcb : f.sent.callback ≠ .none) (stage : Stage) :
      Waited (w.net.insert id { f with stage := stage }) c j g ↔ Waited w.net c j g :=
    waited_insert_other (f := { f with stage := stage }) (hc.resolve_right hcb)
      (fun g hg ↦ (congrArg Flight.client (hold g hg)).symm) j g
  cases ht with
  | aborted a => rfl
  | responded srv out hcb => simpa [setServer, setFlight] using hother hcb (.reply out)
  | pushing srv bytes hcb => exact hother hcb (.push bytes)
  | silent srv hcb =>
    refine waited_erase (fun g' hg' ↦ ?_) j g
    exact hg'.2.2 (hold g' hg'.1 ▸ hcb)

theorem serve_ok {w : World C} (h : Ok cfg w) {id : ℕ} {env : Env} {f : Flight C}
    (hf : w.net id = some f) (srv : Server) :
    Ok cfg (w.handled id f (srv.handle f.sent.request env)) := by
  have ht := handled_taken w id (h.net.kind id f hf) srv env
  generalize srv.handle f.sent.request env = r at ht ⊢
  generalize w.handled id f r = w' at ht ⊢
  cases ht with
  | aborted a => exact h.congr rfl rfl rfl
  | responded s out hcb =>
    exact setStage_ok h hf hcb (.reply out) (w.clients f.client).memory (by simp [setServer,
      setFlight]) (fun _ _ ↦ by simp [setServer, setFlight]) (by simp [setServer, setFlight])
      (by simp [setServer, setFlight])
  | pushing s bytes hcb =>
    exact setStage_ok h hf hcb (.push bytes) (w.clients f.client).memory rfl (fun _ _ ↦ rfl)
      rfl rfl
  | silent s hcb =>
    refine ⟨erase_net h.net id, fun c ↦ ?_⟩
    refine (h.clients c).frame fun j g ↦ waited_erase (fun g' hg' ↦ ?_) j g
    obtain rfl := Option.some.inj (hf.symm.trans hg'.1)
    exact hg'.2.2 hcb

theorem memory_ok {net : PMap ℕ (Flight C)} {c : C} {cl : Client} (h : ClientOk cfg net c cl)
    (memory : Memory UInt8) : ClientOk cfg net c { cl with memory := memory } := by
  refine ⟨h.counters, h.tracked, h.redir, ?_⟩
  rcases h.status with hq | ⟨p, f, ha⟩
  · exact .inl ⟨hq.noFlight, hq.complete, hq.answered⟩
  · exact .inr ⟨p, f, ha.blocked, ha.waited, ha.only, ha.silent, ha.seek, ha.sent, ha.complete⟩

variable [DecidableEq C]

theorem returnNow_ok {w : World C} (h : Ok cfg w) {c : C} {k : Call} {cell : Addr} {cl : Client}
    (hb : (w.clients c).blocked = none) (hs : Started cfg (w.clients c) cell k cl none) :
    Ok cfg ((w.noteOpen c k none).returned c k (cl.finishCall cfg k (-1))) := by
  obtain ⟨hok, hb', hk⟩ := started_none_ok (h.clients c) hb hs
  refine h.of_client c ?_ ?_ (fun c' hc' ↦ ?_) (fun c' hc' j g ↦ ?_)
  · simpa [returned, setClient] using h.net
  · simpa [returned, setClient] using finish_ok hok hb' k (-1) hk
  · simp [returned, setClient, hc']
  · simp [returned, setClient]

theorem fire_ok {w : World C} (h : Ok cfg w) {c : C} {k : Call} {cell : Addr} {cl : Client}
    {s : Sent} (hb : (w.clients c).blocked = none)
    (hs : Started cfg (w.clients c) cell k cl (some s)) (hcb : s.callback = .none) :
    Ok cfg (((w.noteOpen c k (some w.next)).post c s).returned c k (cl.finishCall cfg k 0)) := by
  have hq := quiet_of_unblocked (h.clients c) hb
  have hok := h.clients c
  have hfree : w.net w.next = none := h.net.fresh _ le_rfl
  cases hs with
  | openSent => cases hcb
  | transferSent => cases hcb
  | lseekSent => cases hcb
  | closeSent p fd cache hp ho =>
    have hw (c' : C) := waited_insert_silent
      (f := ⟨c, ⟨cfg.host p, p, .closeRpc ⟨(w.clients c).fdRedirMap.index fd⟩, .none⟩,
        .request⟩) rfl hfree c'
    refine h.of_client c ?_ ?_ (fun c' hc' ↦ ?_) (fun c' hc' j g ↦ ?_)
    · simpa [returned, setClient, post, setFlight] using post_net h.net (.closing ..)
    · have hcl : ClientOk cfg w.net c { w.clients c with
          addressCache := cache
          fdRedirMap := (w.clients c).fdRedirMap.erase fd
          fdMap := (w.clients c).fdMap.erase fd } := by
        refine ⟨hok.counters, fun j q hj ↦ ?_, fun j hj ↦ ?_,
          .inl ⟨hq.noFlight, fun j hj ↦ ?_, by simp [hb]⟩⟩
        · by_cases hne : j = fd
          · simp [hne] at hj
          · exact hok.tracked j q (by simpa [hne] using hj)
        · by_cases hne : j = fd
          · simp [hne] at hj
          · simpa [hne] using hok.redir j (by simpa [hne] using hj)
        · by_cases hne : j = fd
          · simp [hne] at hj
          · simpa [hne] using hq.complete j (by simpa [hne] using hj)
      have hfin := finish_ok hcl hb (.close fd) 0 (by simp)
      simpa [returned, setClient, post, setFlight] using hfin.frame (hw c)
    · simp [returned, setClient, post, setFlight, hc']
    · simpa [returned, setClient, post, setFlight] using hw c' j g

theorem block_ok {w : World C} (h : Ok cfg w) {c : C} {k : Call} {cell : Addr} {cl : Client}
    {s : Sent} (hb : (w.clients c).blocked = none)
    (hs : Started cfg (w.clients c) cell k cl (some s)) (hcb : s.callback ≠ .none) :
    Ok cfg (((w.noteOpen c k (some w.next)).post c s).setClient c
      { cl with blocked := some ⟨k, w.next, s.host, cell⟩ }) := by
  have hfree : w.net w.next = none := h.net.fresh _ le_rfl
  refine h.of_client c ?_ ?_ (fun c' hc' ↦ ?_) (fun c' hc' j g ↦ ?_)
  · simpa [setClient, post, setFlight] using post_net h.net (started_kind hs)
  · simpa [setClient, post, setFlight] using started_some_ok (h.clients c) hb hs hcb
  · simp [setClient, post, setFlight, hc']
  · simpa [setClient, post, setFlight] using
      waited_insert_other (f := ⟨c, s, .request⟩) hc' (by simp [hfree]) j g

theorem reply_ok {w : World C} (h : Ok cfg w) {id : ℕ} {f : Flight C} {out : ℤ} {cl : Client}
    (hf : w.net id = some f) (hst : f.stage = .reply out)
    (hc : (w.clients f.client).complete out f.sent.callback = .ok cl) :
    Ok cfg (((w.setClient f.client cl).dropFlight id).noteReply id f.client f.sent.callback) := by
  have hcb : f.sent.callback ≠ .none := fun hn ↦ by
    simp [h.net.closing id f hf hn] at hst
  obtain ⟨p, rfl, ha⟩ := awaiting_of_flight h hf hcb
  obtain ⟨path, hpath, hsent⟩ := ha.sent
  have hok := h.clients f.client
  have hno : ∀ j g, ¬Waited (w.net.erase p.request) f.client j g := fun j g hg ↦ by
    by_cases hj : j = p.request
    · simp [Waited, hj] at hg
    · exact hj (ha.only j g ⟨by simpa [hj] using hg.1, hg.2⟩)
  refine h.of_client f.client ?_ ?_ (fun c' hc' ↦ ?_) (fun c' hc' j g ↦ ?_)
  · simpa [setClient, dropFlight] using erase_net h.net p.request
  · suffices ClientOk cfg (w.net.erase p.request) f.client cl by
      simpa [setClient, dropFlight] using this
    rw [hsent] at hc
    cases hk : p.call with
    | openFile pathname flags fd =>
      simp only [sentFor, hk, complete, ftcOpenCb, Except.ok.injEq] at hc
      subst hc
      refine ⟨hok.counters, hok.tracked, fun j hj ↦ ?_, .inl ⟨hno, fun j hj ↦ ?_, fun q hq ↦ ?_⟩⟩
      · by_cases hne : j = fd
        · subst j
          simpa [hk, Call.fd, setDone] using congrArg Option.isSome hpath
        · exact hok.redir j (by simpa [setDone, hne] using hj)
      · by_cases hne : j = fd
        · simp [setDone, hne]
        · have hd := (ha.complete j hj).mpr (by simp [hk, opens, Ne.symm hne])
          simpa [setDone, hne] using hd
      · obtain rfl : p = q := Option.some.inj (ha.blocked.symm.trans hq)
        exact ⟨by simp [replied, hk, setDone], by simp [setDone, hpath], by simp [hk]⟩
    | read fd buf count | pread fd buf count offset =>
      simp only [sentFor, hk, complete, ftcReadCb, Except.ok.injEq] at hc
      subst hc
      refine ⟨hok.counters, hok.tracked, hok.redir, .inl ⟨hno, fun j hj ↦ ?_, fun q hq ↦ ?_⟩⟩
      · exact (ha.complete j hj).mpr (by simp [hk, opens])
      · obtain rfl : p = q := Option.some.inj (ha.blocked.symm.trans hq)
        exact ⟨by simp [replied, hk], by simp [hpath], by simp [hk]⟩
    | lseek fd offset whence =>
      simp only [sentFor, hk, complete, ftcSeekCb, Except.ok.injEq] at hc
      subst hc
      have hzero := ha.seek (by simp [hk, timed])
      refine ⟨hok.counters, hok.tracked, hok.redir, .inl ⟨hno, fun j hj ↦ ?_, fun q hq ↦ ?_⟩⟩
      · exact (ha.complete j hj).mpr (by simp [hk, opens])
      · obtain rfl : p = q := Option.some.inj (ha.blocked.symm.trans hq)
        exact ⟨by simp [replied, hk, hzero], by simp [hpath], by simp [hk]⟩
    | close fd => exact absurd (by simp [hsent, sentFor, hk]) hcb
  · simp [setClient, dropFlight, hc']
  · simp only [noteReply_net, setClient, dropFlight]
    refine waited_erase (fun g' hg' ↦ ?_) j g
    obtain rfl := Option.some.inj (hf.symm.trans hg'.1)
    exact hc' hg'.2.1.symm

theorem wake_ok {w : World C} (h : Ok cfg w) {c : C} {p : Pending}
    (hb : (w.clients c).blocked = some p) (hr : (w.clients c).replied p = true) (ret : ℤ) :
    Ok cfg (w.returned c p.call
      ({ w.clients c with blocked := none }.finishCall cfg p.call ret)) := by
  have hok := h.clients c
  have hq : Quiet w.net c (w.clients c) := by
    rcases hok.status with hq | ⟨q, f, ha⟩
    · exact hq
    · obtain rfl : p = q := Option.some.inj (hb.symm.trans ha.blocked)
      simp [ha.silent] at hr
  have hfree : ClientOk cfg w.net c { w.clients c with blocked := none } :=
    ⟨hok.counters, hok.tracked, hok.redir, .inl ⟨hq.noFlight, hq.complete, by simp⟩⟩
  have hnot := (hq.answered p hb).2.2
  refine h.of_client c h.net ?_ (fun c' hc' ↦ ?_) (fun c' hc' j g ↦ .rfl)
  · simpa [returned, setClient] using
      finish_ok hfree rfl p.call ret fun fd hk ↦ absurd hk (hnot fd)
  · simp [returned, setClient, hc']

theorem start_ok (job : Job) (C : Type) : Ok job.cfg (job.start C) := by
  refine ⟨start_net job C, fun c ↦ ⟨?_, ?_, ?_, .inl ⟨?_, ?_, ?_⟩⟩⟩ <;>
    simp [Job.start, Waited]

theorem steps_ok {w w' : World C} {l : Label C} (h : Ok cfg w) (hl : Patient w l)
    (hs : Steps cfg w l w') : Ok cfg w' := by
  cases hs with
  | returnNow c k cell cl hb hs => exact returnNow_ok h hb hs
  | fire c k cell cl s hb hs hcb => exact fire_ok h hb hs hcb
  | block c k cell cl s hb hs hcb => exact block_ok h hb hs hcb
  | serve id env f hf hst ha => exact serve_ok h hf _
  | push id f bytes buf cell hf hst hcb =>
    exact setStage_ok h hf (by simp [hcb]) _ ((w.clients f.client).memory.store buf bytes)
      (by simp [setClient, setFlight])
      (fun c' hc' ↦ by simp [setClient, setFlight, hc']) rfl rfl
  | reply id f out cl hf hst hc => exact reply_ok h hf hst hc
  | wake c p hb hr => exact wake_ok h hb hr _
  | giveUp c p hb ht => cases hl
  | mover h' m srv ha hm => exact h.congr rfl rfl rfl
  | store c a bytes hb =>
    refine h.of_client c h.net ?_ (fun c' hc' ↦ by simp [setClient, hc']) (fun _ _ _ _ ↦ .rfl)
    simpa [setClient] using memory_ok (h.clients c) _

end FTCache.Protocol
