import FTCache.Flights

namespace FTCache.FailedHosts

open Runs World Client Flights

variable {C : Type} [DecidableEq C] {cfg : Config}

def soughtHost (cfg : Config) (cl : Client) : Call → Option Host
  | .lseek fd _ _ => (cl.fdMap fd).map cfg.host
  | _ => none

/-- No seek goes to a host that has reached the limit. -/
def Spares (cfg : Config) (w : World C) (l : Label C) : Prop :=
  ∀ x ∈ l.calling, ∀ host ∈ soughtHost cfg (w.clients x.1) x.2,
    ¬(w.clients x.1).overLimit host

def Unsought (cfg : Config) (host : Host) (w : World C) (l : Label C) : Prop :=
  ∀ x ∈ l.calling, host ∉ soughtHost cfg (w.clients x.1) x.2

instance (cfg : Config) (w : World C) (l : Label C) : Decidable (Spares cfg w l) :=
  inferInstanceAs (Decidable (∀ x ∈ l.calling, ∀ host ∈ soughtHost cfg (w.clients x.1) x.2,
    ¬(w.clients x.1).overLimit host))

instance (cfg : Config) (host : Host) (w : World C) (l : Label C) :
    Decidable (Unsought cfg host w l) :=
  inferInstanceAs (Decidable (∀ x ∈ l.calling, ¬host ∈ soughtHost cfg (w.clients x.1) x.2))

/-- A step forwards no request of a client to a host at which this client has
already timed out as often as the limit allows. -/
def LeavesAlone (cfg : Config) (w : World C) (l : Label C) : Prop :=
  ∀ w' ∈ step cfg w l, ∀ id f, w.net id = none → w'.net id = some f →
    ¬(w.clients f.client).overLimit f.sent.host

/-- Every call that waits for `host` does so under the time limit. -/
def WaitsTimed (host : Host) (w : World C) : Prop :=
  ∀ c, ∀ p ∈ (w.clients c).blocked, p.host = host → timed p.call = true

/-- Whether a step is the end of a wait of `c` for `host` by time-out. -/
def timedOutWait (c : C) (host : Host) (w : World C) : Label C → ℕ
  | .giveUp c' => if c' = c ∧ (w.clients c).blocked.any (·.host = host) then 1 else 0
  | _ => 0

/-- The waits of `c` for `host` that time out in a run. -/
def timedOutWaits (cfg : Config) (c : C) (host : Host) (w : World C) : List (Label C) → ℕ
  | [] => 0
  | l :: ls => timedOutWait c host w l +
      ((step cfg w l).map fun w' ↦ timedOutWaits cfg c host w' ls).getD 0

/-- What a step can do to the counters of a client and to the call it is blocked in. -/
inductive Waiting (cfg : Config) (w : World C) (c : C) : Label C → Client → Prop
  | same (l : Label C) (cl : Client) (hl : ∀ host, timedOutWait c host w l = 0)
      (hc : cl.timeoutCounters = (w.clients c).timeoutCounters)
      (hb : cl.blocked = (w.clients c).blocked ∨ cl.blocked = none) : Waiting cfg w c l cl
  | blocks (k : Call) (cell : Addr) (started cl : Client) (s : Sent)
      (hs : Started cfg (w.clients c) cell k started (some s)) (hcb : s.callback ≠ .none)
      (hc : cl.timeoutCounters = (w.clients c).timeoutCounters)
      (hb : cl.blocked = some ⟨k, w.next, s.host, cell⟩) : Waiting cfg w c (.call c k cell) cl
  | givenUp (p : Pending) (cl : Client) (hp : (w.clients c).blocked = some p)
      (hc : cl.timeoutCounters = Function.update (w.clients c).timeoutCounters p.host
        ((w.clients c).timeoutCounters p.host + 1))
      (hb : cl.blocked = none) : Waiting cfg w c (.giveUp c) cl

theorem steps_waiting {w w' : World C} {l : Label C} (hs : Steps cfg w l w') (c : C) :
    Waiting cfg w c l (w'.clients c) := by
  -- a step of another client leaves this one as it is
  have hclient {l : Label C} {c' : C} {cl : Client}
      (hl : c ≠ c' → ∀ host, timedOutWait c host w l = 0) (hcl : c = c' → Waiting cfg w c l cl) :
      Waiting cfg w c l (Function.update w.clients c' cl c) := by
    by_cases hc : c = c'
    · subst hc
      rw [Function.update_self]
      exact hcl rfl
    · rw [Function.update_of_ne hc]
      exact .same l _ (hl hc) rfl (.inl rfl)
  cases hs with
  | returnNow c' k cell cl hb hs =>
    simp only [returned, setClient, noteOpen_clients]
    refine hclient (fun _ _ ↦ rfl) fun hc ↦ ?_
    subst hc
    exact .same _ _ (fun _ ↦ rfl) (by rw [finishCall_counters, started_counters hs])
      (.inl (by rw [finishCall_blocked, started_blocked hs]))
  | fire c' k cell cl s hb hs hcb =>
    simp only [returned, setClient, post, setFlight, noteOpen_clients]
    refine hclient (fun _ _ ↦ rfl) fun hc ↦ ?_
    subst hc
    exact .same _ _ (fun _ ↦ rfl) (by rw [finishCall_counters, started_counters hs])
      (.inl (by rw [finishCall_blocked, started_blocked hs]))
  | block c' k cell cl s hb hs hcb =>
    simp only [setClient, post, setFlight, noteOpen_clients]
    refine hclient (fun _ _ ↦ rfl) fun hc ↦ ?_
    subst hc
    have hcount := started_counters hs
    exact .blocks k cell cl _ s hs hcb hcount rfl
  | serve id env f hf hst ha =>
    rw [handled_clients]
    exact .same _ _ (fun _ ↦ rfl) rfl (.inl rfl)
  | push id f bytes buf cell hf hst hcb =>
    simp only [setClient, setFlight]
    refine hclient (fun _ _ ↦ rfl) fun hc ↦ ?_
    subst hc
    exact .same _ _ (fun _ ↦ rfl) rfl (.inl rfl)
  | reply id f out cl hf hst hcomp =>
    simp only [noteReply_clients, dropFlight, setClient]
    refine hclient (fun _ _ ↦ rfl) fun hc ↦ ?_
    subst hc
    exact .same _ _ (fun _ ↦ rfl) (complete_counters hcomp) (.inl (complete_blocked hcomp))
  | wake c' p hb hr =>
    simp only [returned, setClient]
    refine hclient (fun _ _ ↦ rfl) fun hc ↦ ?_
    subst hc
    exact .same _ _ (fun _ ↦ rfl) (by rw [finishCall_counters]) (.inr (by rw [finishCall_blocked]))
  | giveUp c' p hb ht =>
    simp only [returned, setClient]
    refine hclient (fun hc host ↦ by simp [timedOutWait, Ne.symm hc]) fun hc ↦ ?_
    subst hc
    exact .givenUp p _ hb (by rw [finishCall_counters, timeOut])
      (by rw [finishCall_blocked, timeOut])
  | mover h' m srv ha hm => exact .same _ _ (fun _ ↦ rfl) rfl (.inl rfl)
  | store c' a bytes hb =>
    simp only [setClient]
    refine hclient (fun _ _ ↦ rfl) fun hc ↦ ?_
    subst hc
    exact .same _ _ (fun _ ↦ rfl) rfl (.inl rfl)

theorem steps_counters {w w' : World C} {l : Label C} (hs : Steps cfg w l w') (c : C)
    (host : Host) : (w'.clients c).timeoutCounters host =
      (w.clients c).timeoutCounters host + timedOutWait c host w l := by
  cases steps_waiting hs c with
  | same l cl hl hc hb => rw [hl, hc, Nat.add_zero]
  | blocks k cell started cl s hs hcb hc hb =>
    rw [hc]
    rfl
  | givenUp p cl hp hc hb =>
    rw [hc]
    by_cases hh : p.host = host
    · subst hh
      simp [timedOutWait, hp]
    · simp [timedOutWait, hp, hh, Ne.symm hh]

theorem exec_counters {w w' : World C} {ls : List (Label C)}
    (h : exec (step cfg) w ls = some w') (c : C) (host : Host) :
    (w'.clients c).timeoutCounters host =
      (w.clients c).timeoutCounters host + timedOutWaits cfg c host w ls := by
  induction ls generalizing w with
  | nil =>
    cases h
    rfl
  | cons l ls ih =>
    obtain ⟨v, hv, h⟩ := Option.bind_eq_some_iff.mp h
    rw [ih h, steps_counters (step_steps hv) c host]
    simp only [timedOutWaits, hv, Option.map_some, Option.getD_some]
    omega

/-- Every call but a seek finds its host below the limit, and waits under the time limit. -/
theorem started_host {cl cl' : Client} {k : Call} {cell : Addr} {s : Sent}
    (h : Started cfg cl cell k cl' (some s)) :
    s.host ∈ soughtHost cfg cl k ∨ ¬cl.overLimit s.host ∧ timed k = true := by
  cases h with
  | openSent path p flags fd cache hp hg ht ho => exact .inr ⟨ho, rfl⟩
  | transferSent k p fd buf count offset cache hk hp ho =>
    refine .inr ⟨ho, ?_⟩
    cases k with
    | read => rfl
    | pread => rfl
    | openFile => cases hk
    | lseek => cases hk
    | close => cases hk
  | lseekSent p fd offset whence cache hp => exact .inl (by simp [soughtHost, hp])
  | closeSent p fd cache hp ho => exact .inr ⟨ho, rfl⟩

/-- The counters stay within the limit, and a call waits only for a host below it. -/
structure Quota (w : World C) : Prop where
  counters : ∀ c host, (w.clients c).timeoutCounters host ≤ timeoutLimit
  waiting : ∀ c, ∀ p ∈ (w.clients c).blocked, ¬(w.clients c).overLimit p.host

theorem steps_quota {w w' : World C} {l : Label C} (h : Quota w) (hl : Spares cfg w l)
    (hs : Steps cfg w l w') : Quota w' := by
  have hkept {c : C} {cl : Client} (hc : cl.timeoutCounters = (w.clients c).timeoutCounters)
      (host : Host) : cl.overLimit host ↔ (w.clients c).overLimit host := by
    unfold overLimit
    rw [hc]
  constructor
  · intro c host
    have hcount := h.counters c host
    cases steps_waiting hs c with
    | same l cl hl hc hb => rwa [hc]
    | blocks k cell started cl s hs hcb hc hb => rwa [hc]
    | givenUp p cl hp hc hb =>
      have hlow := h.waiting c p hp
      rw [hc]
      by_cases hh : host = p.host
      · subst hh
        unfold overLimit at hlow
        simp only [Function.update_self]
        omega
      · simpa [hh] using hcount
  · intro c p hp
    have hw := steps_waiting hs c
    generalize w'.clients c = cl at hw hp
    cases hw with
    | same l cl hl hc hb =>
      rw [hkept hc]
      rcases hb with hb | hb
      · exact h.waiting c p (hb ▸ hp)
      · simp [hb] at hp
    | blocks k cell started cl s hst hcb hc hb =>
      obtain rfl : ⟨k, w.next, s.host, cell⟩ = p := by simpa [hb] using hp
      rw [hkept hc]
      rcases started_host hst with hsought | ⟨hlow, -⟩
      · exact hl (c, k) rfl s.host hsought
      · exact hlow
    | givenUp q cl hq hc hb => simp [hb] at hp

/-- A seek on a tracked descriptor is forwarded whatever the counter of its host,
and waits without a time limit. -/
theorem steps_sought {w w' : World C} {c : C} {k : Call} {cell : Addr} {host : Host}
    (hs : Steps cfg w (.call c k cell) w') (hh : host ∈ soughtHost cfg (w.clients c) k) :
    (∃ s, w'.net w.next = some ⟨c, s, .request⟩ ∧ s.host = host) ∧
      (w'.clients c).blocked = some ⟨k, w.next, host, cell⟩ ∧ timed k = false := by
  have hlseek {cl : Client} {s : Option Sent} (hst : Started cfg (w.clients c) cell k cl s) :
      ∃ s', s = some s' ∧ s'.host = host ∧ s'.callback ≠ .none ∧ timed k = false := by
    cases hst with
    | lseekSent p fd offset whence cache hp =>
      exact ⟨_, rfl, by simpa [soughtHost, hp] using hh, by simp, rfl⟩
    | lseekLocal fd offset whence hp => simp [soughtHost, hp] at hh
    | transferLocal k fd buf count offset hk hl =>
      cases k <;> simp [soughtHost, Call.transfer] at hh hk
    | transferSent k p fd buf count offset cache hk hp ho =>
      cases k <;> simp [soughtHost, Call.transfer] at hh hk
    | openUntracked => cases hh
    | openOver => cases hh
    | openSent => cases hh
    | closeLocal => cases hh
    | closeSent => cases hh
  cases hs with
  | returnNow c k cell cl hb hst =>
    obtain ⟨s, he, -⟩ := hlseek hst
    cases he
  | fire c k cell cl s hb hst hcb =>
    obtain ⟨s, he, -, hne, -⟩ := hlseek hst
    cases he
    exact absurd hcb hne
  | block c k cell cl s hb hst hcb =>
    obtain ⟨s, he, rfl, -, ht⟩ := hlseek hst
    cases he
    exact ⟨⟨s, by simp [setClient, post, setFlight], rfl⟩, by simp [setClient], ht⟩

theorem leavesAlone_iff {w w' : World C} {l : Label C} (hnet : NetOk cfg w.net w.next)
    (hw : step cfg w l = some w') : LeavesAlone cfg w l ↔ Spares cfg w l := by
  have hs := step_steps hw
  simp only [LeavesAlone, hw, Option.mem_some_iff, forall_eq']
  constructor
  · intro h x hx host hh
    cases l with
    | call c k cell =>
      cases hx
      obtain ⟨⟨s, hsent, rfl⟩, -⟩ := steps_sought hs hh
      exact h w.next _ (hnet.fresh w.next le_rfl) hsent
    | _ => cases hx
  · intro h id f hold hnew
    obtain ⟨g, hg, -⟩ | ⟨-, k, cell, cl, rfl, -, hst⟩ := steps_flight hs hnew
    · simp [hold] at hg
    rcases started_host hst with hh | ⟨hlow, -⟩
    · exact h (f.client, k) rfl f.sent.host hh
    · exact hlow

theorem steps_waitsTimed {w w' : World C} {l : Label C} {host : Host} (h : WaitsTimed host w)
    (hs : Steps cfg w l w') : WaitsTimed host w' ↔ Unsought cfg host w l := by
  constructor
  · intro h' x hx hh
    cases l with
    | call c k cell =>
      cases hx
      obtain ⟨-, hb, ht⟩ := steps_sought hs hh
      have htrue := h' c _ hb rfl
      simp [ht] at htrue
    | _ => cases hx
  · intro hl c p hp hhost
    have hw := steps_waiting hs c
    generalize w'.clients c = cl at hw hp
    cases hw with
    | same l cl hl hc hb =>
      rcases hb with hb | hb
      · exact h c p (hb ▸ hp) hhost
      · simp [hb] at hp
    | blocks k cell started cl s hst hcb hc hb =>
      obtain rfl : ⟨k, w.next, s.host, cell⟩ = p := by simpa [hb] using hp
      rcases started_host hst with hh | ⟨-, ht⟩
      · exact absurd (hhost ▸ hh) (hl (c, k) rfl)
      · exact ht
    | givenUp q cl hq hc hb => simp [hb] at hp

theorem start_quota (job : Job) (C : Type) : Quota (job.start C) := by
  constructor
  · intro c host
    simp [Job.start]
  · intro c p hp
    cases hp

/-- In a run that sends no seek to a host at its limit, no client forwards to a host
it has given up or waits for it, and it sits through at most `TIMEOUT_LIMIT`
timed-out waits for a host; a host that no seek goes to is only waited for under
the time limit. Both conditions are exact. -/
theorem failed_hosts_left_alone (job : Job) (ls : List (Label C)) (w : World C)
    (hrun : exec (step job.cfg) (job.start C) ls = some w) :
    (Along (step job.cfg) (LeavesAlone job.cfg) (job.start C) ls ↔
      Along (step job.cfg) (Spares job.cfg) (job.start C) ls) ∧
    (Along (step job.cfg) (Spares job.cfg) (job.start C) ls →
      (∀ c host, timedOutWaits job.cfg c host (job.start C) ls ≤ timeoutLimit) ∧
        ∀ c, ∀ p ∈ (w.clients c).blocked, ¬(w.clients c).overLimit p.host) ∧
    ∀ host, Along (step job.cfg) (fun v l ↦ ∀ v' ∈ step job.cfg v l, WaitsTimed host v')
        (job.start C) ls ↔
      Along (step job.cfg) (Unsought job.cfg host) (job.start C) ls := by
  refine ⟨?_, fun hok ↦ ?_, fun host ↦ ?_⟩
  · refine Along.congr_of_step (I := fun v ↦ NetOk job.cfg v.net v.next) ?_ (start_net job C) hrun
    intro v l v' hnet hv
    exact ⟨leavesAlone_iff hnet hv, fun _ ↦ steps_net hnet (step_steps hv)⟩
  · have hquota : Quota w := (Reach.of_exec hrun hok).invariant Quota (start_quota job C)
      fun v l v' h hl hv ↦ steps_quota h hl (step_steps hv)
    refine ⟨fun c host ↦ ?_, hquota.waiting⟩
    have hcount := exec_counters hrun c host
    have hbound := hquota.counters c host
    simp only [Job.start] at hcount ⊢
    omega
  · refine Along.iff_of_step ?_ ?_ hrun
    · intro v l v' h hv
      exact steps_waitsTimed h (step_steps hv)
    · intro c p hp
      cases hp

/-- An open and two reads of a file whose server never answers; the limit is 3. -/
def silentRun : List (Label Unit) :=
  [.call () (.openFile samplePath oRdonly 3) 8, .giveUp (),
    .call () (.read 3 64 4) 8, .giveUp (), .call () (.read 3 64 4) 8, .giveUp ()]

/-- After the limit, a read and the close go to the file system. -/
theorem failed_hosts_left_alone_silent :
    ∃ w, exec (step sampleJob.cfg) (sampleJob.start Unit)
        (silentRun ++ [.call () (.read 3 64 4) 8, .call () (.close 3) 8]) = some w ∧
      Along (step sampleJob.cfg) (LeavesAlone sampleJob.cfg) (sampleJob.start Unit)
        (silentRun ++ [.call () (.read 3 64 4) 8, .call () (.close 3) 8]) ∧
      timedOutWaits sampleJob.cfg () 0 (sampleJob.start Unit)
        (silentRun ++ [.call () (.read 3 64 4) 8, .call () (.close 3) 8]) ≤ timeoutLimit := by
  obtain ⟨w, hw⟩ := Option.isSome_iff_exists.mp
    (show (exec (step sampleJob.cfg) (sampleJob.start Unit)
      (silentRun ++ [.call () (.read 3 64 4) 8, .call () (.close 3) 8])).isSome by decide +kernel)
  obtain ⟨halone, hwaits, -⟩ := failed_hosts_left_alone sampleJob _ w hw
  exact ⟨w, hw, halone.mpr (by decide +kernel), (hwaits (by decide +kernel)).1 () 0⟩

/-- The next seek is sent to the silent server and waits without a time limit. -/
theorem failed_host_sought :
    ¬∀ (ls : List (Label Unit)) (w : World Unit),
      exec (step sampleJob.cfg) (sampleJob.start Unit) ls = some w →
      ∀ p ∈ (w.clients ()).blocked, ¬(w.clients ()).overLimit p.host ∧ timed p.call = true := by
  intro h
  have hrun : (exec (step sampleJob.cfg) (sampleJob.start Unit)
      (silentRun ++ [.call () (.lseek 3 0 0) 8])).any (fun w ↦ (w.clients ()).blocked.any
        fun p ↦ decide ((w.clients ()).overLimit p.host) && !timed p.call) = true := by
    decide +kernel
  obtain ⟨w, hw, hstate⟩ := (Option.any_eq_true _ _).mp hrun
  obtain ⟨p, hp, hpend⟩ := (Option.any_eq_true _ _).mp hstate
  obtain ⟨hlow, ht⟩ := h _ w hw p hp
  simp [hlow, ht] at hpend

end FTCache.FailedHosts
