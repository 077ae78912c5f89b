import FTCache.Ownership

namespace FTCache.Leaks

open Runs Posix World Client Flights Protocol Descriptors Ownership

variable {C : Type} {job : Job}

/-- The server's own `open` and `close` succeed. -/
def OpensAndCloses (srv : Server) (env : Env) : Request → Prop
  | .openRpc inp => (srv.sysOpen env.opened (srv.redirPath inp.path)).1 ≠ -1
  | .closeRpc _ => env.closed = true
  | _ => True

instance (srv : Server) (env : Env) : (r : Request) → Decidable (OpensAndCloses srv env r)
  | .openRpc inp =>
    inferInstanceAs (Decidable ((srv.sysOpen env.opened (srv.redirPath inp.path)).1 ≠ -1))
  | .closeRpc _ => inferInstanceAs (Decidable (env.closed = true))
  | .baseRpc _ => isTrue trivial
  | .seekRpc _ => isTrue trivial

/-- No wait times out, and every server open and close succeeds. -/
def Smooth (w : World C) (l : Label C) : Prop := Patient w l ∧ Serving OpensAndCloses w l

instance (w : World C) (l : Label C) : Decidable (Smooth w l) :=
  inferInstanceAs (Decidable (Patient w l ∧ Serving OpensAndCloses w l))

/-- No server has recorded a path for a failed open. -/
def NoFailure (w : World C) : Prop := ∀ h, (w.servers h).fdToPath (-1) = none

theorem handle_noFailure {srv : Server} {r : Request} {env : Env} (hr : OpensAndCloses srv env r)
    (h : srv.fdToPath (-1) = none) : ((srv.handle r env).after srv).fdToPath (-1) = none := by
  cases r with
  | openRpc inp =>
    simpa [Server.handle, Server.ftcOpenRpcHandler, Handled.after, Ne.symm hr] using h
  | baseRpc inp => rwa [← (transfer_moved srv inp env).fdToPath] at h
  | seekRpc inp => exact h
  | closeRpc inp =>
    simp only [Server.handle, Server.ftcCloseRpcHandler]
    split
    · simp [Handled.after, PMap.erase_touch, h]
    · exact h

variable [DecidableEq C]

theorem steps_noFailure {w w' : World C} {l : Label C} (h : NoFailure w) (hl : Smooth w l)
    (hs : Steps job.cfg w l w') : NoFailure w' := by
  intro host
  rcases steps_server hs host with hsame | ⟨id, env, f, rfl, hf, rfl, hafter⟩ | hm
  · rw [hsame]
    exact h host
  · rw [hafter]
    exact handle_noFailure (hl.2 _ rfl f hf) (h _)
  · have hmap : (w'.servers host).fdToPath = (w.servers host).fdToPath := by
      generalize w'.servers host = srv at hm
      cases hm <;> rfl
    rw [hmap]
    exact h host

/-- The descriptor is open, and not one the server opened for itself. -/
def OpenForClients (job : Job) (w : World C) (h : Host) (s : Fd) : Prop :=
  ((w.servers h).fds s).isSome ∧ job.own h s = none

omit [DecidableEq C] in
theorem live_of_open {w : World C} (ho : Owned job w) {h : Host} {s : Fd}
    (hs : OpenForClients job w h s) : s ≠ -1 ∧ ∃ p, (w.servers h).fdToPath s = some p := by
  refine ⟨?_, Option.isSome_iff_exists.mp ((ho.servers h).keyed s hs.1 hs.2)⟩
  intro he
  subst he
  simpa using (ho.servers h).nonneg _ hs.1

/-- The paths a server has recorded are those of its client descriptors. Each of
these is named once: by an entry of a client, by an open reply or by a close
request in flight, under the path the client recorded. When nothing is in flight
and everything is closed, no client descriptor is left. -/
theorem descriptors_owned (job : Job) (w : World C)
    (h : Reach (World.step job.cfg) Smooth (job.start C) w) :
    (∀ host s, ((w.servers host).fdToPath s).isSome ↔ OpenForClients job w host s) ∧
    (∀ host s, OpenForClients job w host s → ∃ o p, (w.servers host).fdToPath s = some p ∧
      names job.cfg w o = some (host, p, s) ∧
      ∀ o' p', names job.cfg w o' = some (host, p', s) → o' = o) ∧
    (∀ c fd, ((w.clients c).fdRedirMap fd).isSome → ((w.clients c).fdMap fd).isSome) ∧
    ((∀ id, w.net id = none) → (∀ c fd, (w.clients c).fdMap fd = none) →
      ∀ host s, ¬OpenForClients job w host s) := by
  obtain ⟨hok, ho⟩ := reach_owned (h.mono fun _ _ ↦ And.left)
  have hno : NoFailure w := h.invariant NoFailure (fun _ ↦ rfl) fun _ _ _ hb hl hs ↦
    steps_noFailure hb hl (step_steps hs)
  have hnamed {host : Host} {s : Fd} (hs : OpenForClients job w host s) :
      ∃ o p, (w.servers host).fdToPath s = some p ∧ names job.cfg w o = some (host, p, s) ∧
        ∀ o' p', names job.cfg w o' = some (host, p', s) → o' = o := by
    obtain ⟨hne, p, hp⟩ := live_of_open ho hs
    obtain ⟨o, hname, hsole⟩ := ho.ledger.existsUnique (r := (host, p, s)) hne hp
    refine ⟨o, p, hp, hname, fun o' p' ho' ↦ hsole o' ?_⟩
    have hp' : (w.servers host).fdToPath s = some p' := ho.ledger.live_of_names ho' hne
    obtain rfl : p = p' := Option.some.inj (hp.symm.trans hp')
    exact ho'
  refine ⟨fun host s ↦ ⟨fun hs ↦ ?_, fun hs ↦ ?_⟩, fun host s ↦ hnamed,
    fun c fd ↦ (hok.clients c).redir fd, fun hnet hclosed host s hs ↦ ?_⟩
  · obtain ⟨p, hp⟩ := Option.isSome_iff_exists.mp hs
    have hne : s ≠ -1 := by
      intro he
      subst he
      simp [hno host] at hp
    obtain ⟨hown, q, n, b, hfd, -⟩ := (ho.servers host).backed s p hp hne
    exact ⟨by simp [hfd], hown⟩
  · exact (ho.servers host).keyed s hs.1 hs.2
  · obtain ⟨o, p, -, hname, -⟩ := hnamed hs
    cases o <;> simp [names, entryNames, hnet, hclosed] at hname

/-- A descriptor that was opened and has not yet reached its client. -/
theorem descriptors_owned_in_flight :
    ∃ w : World Unit, ∃ o p, (w.servers 0).fdToPath 7 = some p ∧
      names sampleJob.cfg w o = some (0, p, 7) := by
  obtain ⟨w, hreach, hopen⟩ : ∃ w, Reach (World.step sampleJob.cfg) Smooth
      (sampleJob.start Unit) w ∧ ((w.servers 0).fds 7).isSome :=
    Reach.exists_of_exec
      [.call () (.openFile samplePath 0 3) 8, .serve 0 { opened := some 7 }]
      (by decide +kernel) (by decide +kernel)
  obtain ⟨o, p, hp, hname, -⟩ := (descriptors_owned sampleJob w hreach).2.1 0 7 ⟨hopen, rfl⟩
  exact ⟨w, o, p, hp, hname⟩

end FTCache.Leaks
