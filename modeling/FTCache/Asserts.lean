import FTCache.Flights
import FTCache.ReadAnswers

namespace FTCache.Asserts

open Runs Posix Words World Client Server Flights ReadAnswers

variable {C : Type} {cfg : Config}

/-- The requests a server handles without failing an assertion: a read for which
there is a buffer and something to read from, and a close of what is open. -/
def Servable (srv : Server) (env : Env) : Request → Prop
  | .baseRpc inp => (0 ≤ inp.inputVal ∧ env.calloc = true) ∧ (inp.offset = -1 →
      (srv.sysRead env.firstRead inp.accessfd (size64 inp.inputVal)).1.isSome ∨
        (srv.sysRead env.secondRead inp.localfd (size64 inp.inputVal)).1.isSome)
  | .closeRpc inp => (srv.fds inp.fd).isSome ∧ env.closed = true
  | _ => True

instance (srv : Server) (env : Env) : (r : Request) → Decidable (Servable srv env r)
  | .baseRpc inp => inferInstanceAs (Decidable ((0 ≤ inp.inputVal ∧ env.calloc = true) ∧
      (inp.offset = -1 →
        (srv.sysRead env.firstRead inp.accessfd (size64 inp.inputVal)).1.isSome ∨
          (srv.sysRead env.secondRead inp.localfd (size64 inp.inputVal)).1.isSome)))
  | .closeRpc inp => inferInstanceAs (Decidable ((srv.fds inp.fd).isSome ∧ env.closed = true))
  | .openRpc _ => isTrue trivial
  | .seekRpc _ => isTrue trivial

section Handlers

variable {srv : Server} {env : Env} {inp : RpcIn}

theorem ftcRpcHandler_aborts {a fd : Fd} {count : ℕ} {offset : ℤ} :
    (∃ e, srv.ftcRpcHandler (transferIn a fd count offset) env = .aborted e) ↔
      ¬Servable srv env (.baseRpc (transferIn a fd count offset)) := by
  set inp := transferIn a fd count offset with hinp
  have hrange : 0 ≤ inp.inputVal ↔ size64 inp.inputVal < 2 ^ 63 := by
    have hlow : -2 ^ 31 ≤ inp.inputVal := int32_lower count
    have hup : inp.inputVal < 2 ^ 31 := int32_upper count
    constructor
    · intro h0
      have := size64_of_nonneg h0 (by omega)
      omega
    · intro hlt
      by_contra hneg
      have := size64_of_neg (x := inp.inputVal) (by omega) (by omega)
      omega
  have hfit (hlt : size64 inp.inputVal < 2 ^ 63) : size64 inp.inputVal ≤ inp.bulkSize :=
    size64_int32_le (hrange.mpr hlt)
  rw [handler_aborts_iff hfit]
  simp only [Answerable, kernelCalls, Servable, hrange, Bool.and_eq_true, decide_eq_true_eq,
    and_comm (a := env.calloc = true)]

/-- A handler fails an assertion on exactly the requests that are not servable. -/
theorem handle_aborts {s : Sent} (hk : Kind cfg s) :
    (∃ e, srv.handle s.request env = .aborted e) ↔ ¬Servable srv env s.request := by
  cases hk with
  | opening path fd cell hp => simp [Server.handle, Server.ftcOpenRpcHandler, Servable]
  | seeking path inp => simp [Server.handle, Server.ftcSeekRpcHandler, Servable]
  | transfer path accessfd fd buf count offset cell => exact ftcRpcHandler_aborts
  | closing path inp =>
    simp only [Server.handle, Server.ftcCloseRpcHandler, Servable]
    split
    case isTrue hg => simp [hg]
    case isFalse hg => simpa using hg

end Handlers

variable [DecidableEq C]

theorem steps_running {w w' : World C} {l : Label C} (hnet : NetOk cfg w.net w.next)
    (h : ∀ host, (w.servers host).aborted = false) (hl : Serving Servable w l)
    (hs : Steps cfg w l w') (host : Host) : (w'.servers host).aborted = false := by
  rcases steps_server hs host with hsame | ⟨id, env, f, rfl, hf, rfl, hafter⟩ | hm
  · rw [hsame]
    exact h host
  · rw [hafter]
    refine ((after_running (w.servers f.sent.host) f.sent.request env).resolve_left fun he ↦
      (handle_aborts (hnet.kind id f hf)).mp he (hl _ rfl f hf)).trans (h _)
  · have hsame : (w'.servers host).aborted = (w.servers host).aborted := by
      generalize w'.servers host = srv at hm
      cases hm <;> rfl
    rw [hsame]
    exact h host

theorem reach_net {job : Job} {w : World C} {ok : World C → Label C → Prop}
    (h : Reach (World.step job.cfg) ok (job.start C) w) : NetOk job.cfg w.net w.next :=
  h.invariant (fun w ↦ NetOk job.cfg w.net w.next) (start_net job C) fun _ _ _ hb _ hs ↦
    steps_net hb (step_steps hs)

/-- In every reachable state a request stops its server if and only if it is not
servable there, so a run of servable requests stops no server. -/
theorem servers_assert_iff (job : Job) :
    (∀ w : World C, Reach (World.step job.cfg) (fun _ _ ↦ True) (job.start C) w →
      ∀ id f env, w.net id = some f →
        ((∃ a, (w.servers f.sent.host).handle f.sent.request env = .aborted a) ↔
          ¬Servable (w.servers f.sent.host) env f.sent.request)) ∧
    (∀ w : World C, Reach (World.step job.cfg) (Serving Servable) (job.start C) w →
      ∀ host, (w.servers host).aborted = false) := by
  refine ⟨fun w h id f env hf ↦ handle_aborts ((reach_net h).kind id f hf), fun w h ↦ ?_⟩
  have hrun := h.invariant
    (fun w ↦ NetOk job.cfg w.net w.next ∧ ∀ host, (w.servers host).aborted = false)
    ⟨start_net job C, fun _ ↦ rfl⟩ fun _ _ _ hb hl hs ↦
      ⟨steps_net hb.1 (step_steps hs), steps_running hb.1 hb.2 hl (step_steps hs)⟩
  exact hrun.2

/-- A read of an open file is handled, and its server runs on. -/
theorem servers_assert_iff_read :
    ∃ w : World Unit, (w.net 1).isSome ∧ (w.servers 0).aborted = false := by
  obtain ⟨w, hreach, hsome⟩ : ∃ w, Reach (World.step sampleJob.cfg) (Serving Servable)
      (sampleJob.start Unit) w ∧ (w.net 1).isSome :=
    Reach.exists_of_exec [.call () (.openFile samplePath 0 3) 8, .serve 0 { opened := some 7 },
      .reply 0, .wake (), .call () (.read 3 64 4) 8, .serve 1 {}] (by decide +kernel)
      (by decide +kernel)
  exact ⟨w, hsome, (servers_assert_iff sampleJob).2 w hreach 0⟩

/-- A file the server could not open is closed, and the server stops. -/
theorem server_asserts :
    ¬∀ w : World Unit, Reach (World.step sampleJob.cfg) (fun _ _ ↦ True) (sampleJob.start Unit) w →
      ∀ host, (w.servers host).aborted = false := by
  intro h
  obtain ⟨w, hreach, habort⟩ : ∃ w, Reach (World.step sampleJob.cfg) (fun _ _ ↦ True)
      (sampleJob.start Unit) w ∧ (w.servers 0).aborted = true :=
    Reach.exists_of_exec [.call () (.openFile samplePath 0 3) 8, .serve 0 {}, .reply 0, .wake (),
      .call () (.close 3) 8, .serve 1 {}] (by decide +kernel) (by decide +kernel)
  simp [h w hreach 0] at habort

end FTCache.Asserts
