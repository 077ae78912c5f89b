import FTCache.Library.Crowd
import FTCache.Stalls
import Mathlib.Algebra.Order.BigOperators.Group.Finset

namespace FTCache.Quiescence

open Runs Posix Crowd World Client Flights Stalls

variable {C : Type} {cfg : Config}

/-- The steps that deal with a request, from its arrival to the return of its call. -/
def isMessage : Label C → Bool
  | .serve _ _ => true
  | .push _ => true
  | .reply _ => true
  | .wake _ => true
  | .giveUp _ => true
  | _ => false

def isCall : Label C → Bool
  | .call _ _ _ => true
  | _ => false

def pay : Label C → ℕ
  | .call _ _ _ => 5
  | .mover _ _ => 1
  | .store _ _ _ => 1
  | _ => 0

theorem pay_sum (ls : List (Label C)) :
    (ls.map pay).sum + ls.countP isMessage = ls.length + 4 * ls.countP isCall := by
  induction ls with
  | nil => rfl
  | cons l ls ih =>
    rw [List.map_cons, List.sum_cons, List.countP_cons, List.countP_cons, List.length_cons]
    cases l <;> simp [pay, isMessage, isCall] <;> omega

/-- The steps a request still causes in the network. A server that has stopped takes up none. -/
def stageOwed (aborted : Bool) : Stage → ℕ
  | .request => if aborted then 0 else 3
  | .push _ => 2
  | .reply _ => 1

def flightOwed (servers : Host → Server) : Option (Flight C) → ℕ
  | none => 0
  | some f => stageOwed (servers f.sent.host).aborted f.stage

def inFlight (w : World C) : ℕ :=
  ∑ id ∈ Finset.range w.next, flightOwed w.servers (w.net id)

def isBlocked (cl : Client) : ℕ := if cl.blocked.isSome then 1 else 0

def owed [Fintype C] (w : World C) : ℕ := inFlight w + total w.clients isBlocked

theorem stageOwed_le (aborted : Bool) (stage : Stage) : stageOwed aborted stage ≤ 3 := by
  cases stage <;> cases aborted <;> simp [stageOwed]

section Network

variable {w w' : World C}

theorem flightOwed_mono
    (hstop : ∀ h, (w.servers h).aborted = true → (w'.servers h).aborted = true)
    (o : Option (Flight C)) : flightOwed w'.servers o ≤ flightOwed w.servers o := by
  cases o with
  | none => exact le_rfl
  | some f =>
    simp only [flightOwed]
    cases hs : f.stage with
    | push bytes => exact le_rfl
    | reply out => exact le_rfl
    | request =>
      cases ha : (w.servers f.sent.host).aborted with
      | false => exact stageOwed_le ..
      | true => rw [hstop _ ha]

theorem inFlight_le (hnext : w'.next = w.next) (hnet : w'.net = w.net)
    (hstop : ∀ h, (w.servers h).aborted = true → (w'.servers h).aborted = true) :
    inFlight w' ≤ inFlight w := by
  unfold inFlight
  rw [hnext, hnet]
  exact Finset.sum_le_sum fun id _ ↦ flightOwed_mono hstop _

/-- One request goes on, the others are left alone. -/
theorem inFlight_lt {id : ℕ} (hnext : w'.next = w.next) (hlt : id < w.next)
    (hnet : ∀ j, j ≠ id → w'.net j = w.net j)
    (hstop : ∀ h, (w.servers h).aborted = true → (w'.servers h).aborted = true)
    (hid : flightOwed w'.servers (w'.net id) < flightOwed w.servers (w.net id)) :
    inFlight w' + 1 ≤ inFlight w := by
  have hle (j : ℕ) (_ : j ∈ Finset.range w.next) :
      flightOwed w'.servers (w'.net j) ≤ flightOwed w.servers (w.net j) := by
    by_cases hj : j = id
    · subst hj
      exact hid.le
    · rw [hnet j hj]
      exact flightOwed_mono hstop _
  unfold inFlight
  rw [hnext]
  exact Finset.sum_lt_sum hle ⟨id, Finset.mem_range.mpr hlt, hid⟩

theorem inFlight_post {f : Flight C} (hnext : w'.next = w.next + 1)
    (hnet : w'.net = w.net.insert w.next f) (hserv : w'.servers = w.servers) :
    inFlight w' ≤ inFlight w + 3 := by
  unfold inFlight
  rw [hnext, hnet, hserv, Finset.sum_range_succ]
  have hold : ∑ id ∈ Finset.range w.next, flightOwed w.servers (w.net.insert w.next f id) =
      ∑ id ∈ Finset.range w.next, flightOwed w.servers (w.net id) := by
    refine Finset.sum_congr rfl fun id hid ↦ ?_
    have hne : id ≠ w.next := (Finset.mem_range.mp hid).ne
    simp [hne]
  have hnew : flightOwed w.servers (w.net.insert w.next f w.next) ≤ 3 := by
    simpa [flightOwed] using stageOwed_le _ f.stage
  omega

end Network

/-- What becomes of a request that its server takes up. -/
theorem handled_owed {w : World C} (hnet : NetOk cfg w.net w.next) {id : ℕ} {env : Env}
    {f : Flight C} (hf : w.net id = some f) (hst : f.stage = .request)
    (ha : (w.servers f.sent.host).aborted = false) :
    flightOwed (w.handled id f ((w.servers f.sent.host).handle f.sent.request env)).servers
      ((w.handled id f ((w.servers f.sent.host).handle f.sent.request env)).net id) <
        flightOwed w.servers (w.net id) := by
  have hold : flightOwed w.servers (w.net id) = 3 := by simp [flightOwed, hf, hst, ha, stageOwed]
  rw [hold]
  have ht := handled_taken w id (hnet.kind id f hf) (w.servers f.sent.host) env
  generalize (w.servers f.sent.host).handle f.sent.request env = r at ht ⊢
  generalize w.handled id f r = v at ht ⊢
  cases ht with
  | aborted a => simp [flightOwed, setServer, hf, hst, stageOwed]
  | responded srv out hcb => simp [flightOwed, setServer, setFlight, stageOwed]
  | pushing srv bytes hcb => simp [flightOwed, setServer, setFlight, stageOwed]
  | silent srv hcb => simp [flightOwed, setServer, dropFlight]

section Steps

variable [DecidableEq C] [Fintype C] {w w' : World C} {l : Label C}

theorem total_released {clients : C → Client} {c : C} {cl : Client} {p : Pending}
    (hb : (clients c).blocked = some p) (hcl : cl.blocked = none) :
    total (Function.update clients c cl) isBlocked + 1 ≤ total clients isBlocked := by
  have ht := total_update clients isBlocked c cl
  simp only [isBlocked, hb, hcl] at ht
  exact ht.le

theorem total_kept (clients : C → Client) {c : C} {cl : Client}
    (hcl : cl.blocked = (clients c).blocked) :
    total (Function.update clients c cl) isBlocked ≤ total clients isBlocked := by
  have ht := total_update clients isBlocked c cl
  simp only [isBlocked, hcl] at ht
  omega

theorem total_le (clients : C → Client) (c : C) (cl : Client) :
    total (Function.update clients c cl) isBlocked ≤ total clients isBlocked + 1 := by
  have ht := total_update clients isBlocked c cl
  have hle : isBlocked cl ≤ 1 := by
    unfold isBlocked
    split <;> omega
  omega

omit [DecidableEq C] in
theorem owed_paid {a b : ℕ} (hf : inFlight w' ≤ inFlight w + a)
    (hc : total w'.clients isBlocked ≤ total w.clients isBlocked + b) (hp : a + b + 1 ≤ pay l) :
    owed w' + 1 ≤ owed w + pay l := by
  unfold owed
  omega

omit [DecidableEq C] in
theorem owed_flight (hf : inFlight w' + 1 ≤ inFlight w)
    (hc : total w'.clients isBlocked ≤ total w.clients isBlocked) :
    owed w' + 1 ≤ owed w + pay l := by
  unfold owed
  omega

omit [DecidableEq C] in
theorem owed_client (hf : inFlight w' ≤ inFlight w)
    (hc : total w'.clients isBlocked + 1 ≤ total w.clients isBlocked) :
    owed w' + 1 ≤ owed w + pay l := by
  unfold owed
  omega

theorem steps_owed (hnet : NetOk cfg w.net w.next) (hs : Steps cfg w l w') :
    owed w' + 1 ≤ owed w + pay l := by
  have hstop := fun h ↦ steps_stopped (h := h) hs
  cases hs with
  | returnNow c k cell cl hb hs =>
    refine owed_paid (a := 0) (b := 1) ?_ ?_ (by simp [pay])
    · exact inFlight_le (by simp [returned, setClient]) (by simp [returned, setClient]) hstop
    · simpa [returned, setClient] using total_le w.clients c _
  | fire c k cell cl s hb hs hcb =>
    refine owed_paid (a := 3) (b := 1) ?_ ?_ (by simp [pay])
    · exact inFlight_post (f := ⟨c, s, .request⟩)
        (by simp [returned, setClient, post, setFlight])
        (by simp [returned, setClient, post, setFlight])
        (by simp [returned, setClient, post, setFlight])
    · simpa [returned, setClient, post, setFlight] using total_le w.clients c _
  | block c k cell cl s hb hs hcb =>
    refine owed_paid (a := 3) (b := 1) ?_ ?_ (by simp [pay])
    · exact inFlight_post (f := ⟨c, s, .request⟩) (by simp [setClient, post, setFlight])
        (by simp [setClient, post, setFlight]) (by simp [setClient, post, setFlight])
    · simpa [setClient, post, setFlight] using total_le w.clients c _
  | serve id env f hf hst ha =>
    refine owed_flight ?_ ?_
    · exact inFlight_lt (handled_next ..) (hnet.lt hf) (fun j hj ↦ handled_net w f _ hj) hstop
        (handled_owed hnet hf hst ha)
    · rw [handled_clients]
  | push id f bytes buf cell hf hst hcb =>
    refine owed_flight ?_ (total_kept _ rfl)
    refine inFlight_lt rfl (hnet.lt hf) (fun j hj ↦ ?_) hstop ?_
    · simp [setClient, setFlight, hj]
    · simp [setClient, setFlight, flightOwed, hf, hst, stageOwed]
  | reply id f out cl hf hst hc =>
    refine owed_flight ?_ ?_
    · refine inFlight_lt (by simp [setClient, dropFlight]) (hnet.lt hf) (fun j hj ↦ ?_) hstop ?_
      · simp [setClient, dropFlight, hj]
      · simp [setClient, dropFlight, flightOwed, hf, hst, stageOwed]
    · simpa [setClient, dropFlight] using
        total_kept w.clients (complete_blocked hc)
  | wake c p hb hr =>
    refine owed_client (inFlight_le rfl rfl hstop) (total_released hb ?_)
    simp [finishCall_blocked]
  | giveUp c p hb ht =>
    refine owed_client (inFlight_le rfl rfl hstop) (total_released hb ?_)
    simp [finishCall_blocked, timeOut]
  | mover h' m srv ha hm =>
    exact owed_paid (a := 0) (b := 0) (inFlight_le rfl rfl hstop) le_rfl (by simp [pay])
  | store c a bytes hb =>
    exact owed_paid (a := 0) (b := 0) (inFlight_le rfl rfl hstop) (total_kept _ rfl) (by simp [pay])

end Steps

variable [DecidableEq C]

/-- Some request or blocked call can go on. -/
def Stirs (cfg : Config) (w : World C) : Prop :=
  ∃ l, isMessage l = true ∧ (World.step cfg w l).isSome

/-- Where nothing goes on, all that is in flight lies before a server that has stopped. -/
theorem unserved_of_still {w : World C} (hw : Steady cfg w) (hstill : ¬Stirs cfg w) {id : ℕ}
    {f : Flight C} (hf : w.net id = some f) :
    f.stage = .request ∧ (w.servers f.sent.host).aborted = true := by
  cases hst : f.stage with
  | push bytes =>
    obtain ⟨buf, cell, hcb⟩ := hw.pushes id f bytes hf hst
    refine absurd ⟨.push id, rfl, ?_⟩ hstill
    simp [World.step, World.push, hf, hst, hcb]
  | reply out =>
    obtain ⟨cl, hc⟩ : ∃ cl, (w.clients f.client).complete out f.sent.callback = .ok cl := by
      cases f.sent.callback <;> exact ⟨_, rfl⟩
    refine absurd ⟨.reply id, rfl, ?_⟩ hstill
    simp only [World.step, World.reply, hf, Option.bind_some, hst, hc]
    rfl
  | request =>
    cases ha : (w.servers f.sent.host).aborted with
    | true => exact ⟨rfl, rfl⟩
    | false =>
      refine absurd ⟨.serve id {}, rfl, ?_⟩ hstill
      simp [World.step, World.serve, hf, hst, ha]

theorem hung_of_still {w : World C} (hw : Steady cfg w) (hstill : ¬Stirs cfg w) {c : C}
    {p : Pending} (hb : (w.clients c).blocked = some p) : ∃ f, Hung w c p f := by
  cases ht : timed p.call with
  | true =>
    refine absurd ⟨.giveUp c, rfl, ?_⟩ hstill
    simp [World.step, World.giveUp, hb, ht]
  | false =>
    obtain hd | ⟨-, f, hf, hc, hcb⟩ := (hw.seeks c).waits p hb ht
    · refine absurd ⟨.wake c, rfl, ?_⟩ hstill
      simp [World.step, World.wake, hb, replied_of_done ht hd]
    · exact ⟨f, hb, ht, ⟨hf, hc, hcb⟩, unserved_of_still hw hstill hf⟩

/-- The requests of any run cost at most four steps a call, so they come to rest; then only
requests to stopped servers are left, and only seeks that wait for such a server. -/
theorem requests_settle [Fintype C] {job : Job} {ls : List (Label C)} {w : World C}
    (h : exec (World.step job.cfg) (job.start C) ls = some w) :
    ls.countP isMessage ≤ 4 * ls.countP isCall ∧ (Stirs job.cfg w ∨
      (∀ id f, w.net id = some f →
        f.stage = .request ∧ (w.servers f.sent.host).aborted = true) ∧
      ∀ c p, (w.clients c).blocked = some p → ∃ f, Hung w c p f) := by
  constructor
  · have hlen := exec_length_le (I := fun v ↦ NetOk job.cfg v.net v.next)
      (fun _ _ _ hv hs ↦ ⟨steps_net hv (step_steps hs), steps_owed hv (step_steps hs)⟩)
      (start_net job C) h
    have hstart : owed (job.start C) = 0 := by simp [owed, inFlight, total, isBlocked, Job.start]
    have hsum := pay_sum ls
    omega
  · have hw := reach_steady (.of_exec h ((Along.iff_forall h).mpr fun _ _ ↦ trivial))
    by_cases hstirs : Stirs job.cfg w
    · exact .inl hstirs
    · exact .inr ⟨fun _ _ ↦ unserved_of_still hw hstirs, fun _ _ ↦ hung_of_still hw hstirs⟩

/-- A file is opened and read; the reply to the read comes when its call has given up. -/
def lateRun : List (Label Bool) :=
  [.call true (.openFile samplePath 0 3) 8, .serve 0 { opened := some 7 }, .reply 0, .wake true,
    .call true (.read 3 64 4) 8, .serve 1 {}, .giveUp true, .push 1, .reply 1]

theorem requests_settle_late : ∃ w,
    exec (World.step sampleJob.cfg) (sampleJob.start Bool) lateRun = some w ∧
    lateRun.countP isMessage ≤ 4 * lateRun.countP isCall ∧ (Stirs sampleJob.cfg w ∨
      (∀ id f, w.net id = some f →
        f.stage = .request ∧ (w.servers f.sent.host).aborted = true) ∧
      ∀ c p, (w.clients c).blocked = some p → ∃ f, Hung w c p f) := by
  have hrun : (exec (World.step sampleJob.cfg) (sampleJob.start Bool) lateRun).isSome := by
    decide +kernel
  obtain ⟨w, hw⟩ := Option.isSome_iff_exists.mp hrun
  exact ⟨w, hw, requests_settle hw⟩

end FTCache.Quiescence
