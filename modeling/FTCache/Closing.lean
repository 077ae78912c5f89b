import FTCache.Translation

namespace FTCache.Closing

open Runs Posix World Client Flights Translation

variable {C : Type} {cfg : Config}

/-- The server descriptor that the open request `id` has opened, with its host. -/
def opened (w : World C) (id : ℕ) : Option (Host × Fd) :=
  (w.hist.served id).bind fun x ↦ if 0 ≤ x.2.2 then some (x.1, x.2.2) else none

/-- The close request a step forwards: its host and the server descriptor it names. -/
def closeSent (w w' : World C) : Option (Host × Fd) :=
  (w'.net w.next).bind fun f ↦
    match f.sent.request with
    | .closeRpc inp => some (f.sent.host, inp.fd)
    | _ => none

/-- A world under watch. `closed` marks a descriptor that was tracked when it was closed
and has not been opened since; `closes id` counts the close requests sent for the server
descriptor that `id` has opened. -/
structure Watch (C : Type) where
  world : World C
  closed : C → Fd → Bool
  closes : ℕ → ℕ

namespace Watch

variable [DecidableEq C]

def start (w : World C) : Watch C := ⟨w, fun _ _ ↦ false, fun _ ↦ 0⟩

def mark (a : Watch C) (c : C) (fd : Fd) (b : Bool) : C → Fd → Bool :=
  Function.update a.closed c (Function.update (a.closed c) fd b)

def marks (a : Watch C) : Label C → C → Fd → Bool
  | .call c (.openFile _ _ fd) _ => a.mark c fd false
  | .call c (.close fd) _ =>
    if ((a.world.clients c).fdMap fd).isSome then a.mark c fd true else a.closed
  | _ => a.closed

def step (cfg : Config) (a : Watch C) (l : Label C) : Option (Watch C) :=
  (World.step cfg a.world l).map fun w ↦
    { world := w
      closed := a.marks l
      closes := fun id ↦ a.closes id +
        if (opened a.world id).isSome ∧ opened a.world id = closeSent a.world w then 1 else 0 }

end Watch

/-- The latest open of a descriptor and the server descriptor it has opened. -/
def openedFor (w : World C) (c : C) (fd : Fd) : Option (ℕ × Host × Fd) :=
  (w.hist.latestOpen c fd).bind fun id ↦ (opened w id).map fun x ↦ (id, x)

def Clear (cl : Client) (fd : Fd) : Prop := cl.fdMap fd = none ∧ cl.fdRedirMap fd = none

/-- What was closed is in neither map of its client. -/
def NoTrace (a : Watch C) : Prop := ∀ c fd, a.closed c fd = true → Clear (a.world.clients c) fd

/-- A step that closes a tracked descriptor for which the server has opened one leaves it
with exactly one close request sent, or finds its host failed. -/
def Released (a : Watch C) (l : Label C) (b : Watch C) : Prop :=
  ∀ c fd cell, l = .call c (.close fd) cell → ((a.world.clients c).fdMap fd).isSome →
    ∀ x ∈ openedFor a.world c fd,
      b.closes x.1 = 1 ∨ (b.world.clients c).overLimit x.2.1

def openReply : Callback → Option Fd
  | .openCb fd _ => some fd
  | _ => none

/-- What goes well at a step. A tracked descriptor is closed with no entry in `fd_redir_map`
when its host is over the limit. Else the entry, or 0 without one, names what the server
has opened for it and no close request for that has been sent, or it names something else
and one has. An open reply finds its descriptor not closed. -/
def Well (cfg : Config) (a : Watch C) : Label C → Prop
  | .call c (.close fd) _ => ∀ p ∈ (a.world.clients c).fdMap fd,
    if (a.world.clients c).overLimit (cfg.host p) then (a.world.clients c).fdRedirMap fd = none
    else ∀ x ∈ openedFor a.world c fd,
      a.closes x.1 = if (a.world.clients c).fdRedirMap.index fd = x.2.2 then 0 else 1
  | .reply id => ∀ f ∈ a.world.net id, ∀ fd ∈ openReply f.sent.callback,
    a.closed f.client fd = false
  | _ => True

instance (cfg : Config) (a : Watch C) : (l : Label C) → Decidable (Well cfg a l)
  | .call c (.close fd) _ => inferInstanceAs (Decidable (∀ p ∈ (a.world.clients c).fdMap fd,
      if (a.world.clients c).overLimit (cfg.host p) then (a.world.clients c).fdRedirMap fd = none
      else ∀ x ∈ openedFor a.world c fd,
        a.closes x.1 = if (a.world.clients c).fdRedirMap.index fd = x.2.2 then 0 else 1))
  | .reply id => inferInstanceAs (Decidable (∀ f ∈ a.world.net id,
      ∀ fd ∈ openReply f.sent.callback, a.closed f.client fd = false))
  | .call _ (.openFile _ _ _) _ => isTrue trivial
  | .call _ (.read _ _ _) _ => isTrue trivial
  | .call _ (.pread _ _ _ _) _ => isTrue trivial
  | .call _ (.lseek _ _ _) _ => isTrue trivial
  | .serve _ _ => isTrue trivial
  | .push _ => isTrue trivial
  | .wake _ => isTrue trivial
  | .giveUp _ => isTrue trivial
  | .mover _ _ => isTrue trivial
  | .store _ _ _ => isTrue trivial

/-- How the latest opens and what the servers answered to them hang together in every run. -/
structure Linked (cfg : Config) (w : World C) : Prop where
  tracks : Tracks cfg w
  unserved : ∀ id, w.next ≤ id → w.hist.served id = none
  host : ∀ c fd id path x, w.hist.latestOpen c fd = some id →
    (w.clients c).fdMap fd = some path → w.hist.served id = some x → x.1 = cfg.host path

theorem Linked.keep {w w' : World C} (h : Linked cfg w) (ht : Tracks cfg w')
    (hnext : w.next ≤ w'.next) (hserved : w'.hist.served = w.hist.served)
    (hlatest : ∀ c fd id, w'.hist.latestOpen c fd = some id →
      id = w.next ∨ (w.hist.latestOpen c fd = some id ∧
        ∀ path, (w'.clients c).fdMap fd = some path → (w.clients c).fdMap fd = some path)) :
    Linked cfg w' := by
  refine ⟨ht, fun id hid ↦ ?_, fun c fd id path x hid hp hx ↦ ?_⟩
  · rw [hserved]
    exact h.unserved id (hnext.trans hid)
  · rw [hserved] at hx
    rcases hlatest c fd id hid with rfl | ⟨hold, hmap⟩
    · simp [h.unserved _ le_rfl] at hx
    · exact h.host c fd id path x hold (hmap path hp) hx

theorem served_linked {w : World C} (h : Linked cfg w) {id : ℕ} {f : Flight C}
    (hf : w.net id = some f) (r : Handled)
    (ht : Tracks cfg (w.handled id f r)) : Linked cfg (w.handled id f r) := by
  have hsame : ∀ c, ((w.handled id f r).clients c).fdMap = (w.clients c).fdMap := by
    intro c
    rw [handled_clients]
  have hid := h.tracks.net.lt hf
  -- only the answer to an open request is recorded
  have hserved : ∀ j x, (w.handled id f r).hist.served j = some x →
      w.hist.served j = some x ∨ (j = id ∧ x.1 = f.sent.host ∧ x.2.1 = f.sent.path) := by
    intro j x hx
    cases r with
    | responded srv out =>
      simp only [handled, noteServed] at hx
      split at hx
      · by_cases hj : j = id
        · obtain rfl := Option.some.inj (by simpa [hj] using hx)
          exact .inr ⟨hj, rfl, rfl⟩
        · exact .inl ((Function.update_of_ne hj ..).symm.trans hx)
      · exact .inl hx
    | _ => exact .inl hx
  have hlatest : (w.handled id f r).hist.latestOpen = w.hist.latestOpen := by
    cases r with
    | responded srv out =>
      simp only [handled, noteServed]
      split <;> rfl
    | _ => rfl
  refine ⟨ht, fun j hj ↦ ?_, fun c fd j path x hj hp hx ↦ ?_⟩
  · rw [handled_next] at hj
    by_contra hne
    obtain ⟨x, hx⟩ := Option.ne_none_iff_exists'.mp hne
    rcases hserved j x hx with hold | ⟨rfl, -⟩
    · simp [h.unserved j hj] at hold
    · omega
  · rw [hlatest] at hj
    rw [hsame] at hp
    rcases hserved j x hx with hold | ⟨rfl, hhost, -⟩
    · exact h.host c fd j path x hj hp hold
    · obtain ⟨-, -, hpath⟩ := h.tracks.latest c fd j f hj hf
      rw [hhost, (h.tracks.net.kind j f hf).host_eq, hpath path hp]

variable [DecidableEq C]

/-- The latest open of a descriptor is the request just forwarded or the one it was, for a
path tracked before. -/
theorem steps_latest {w w' : World C} {l : Label C} (hs : Steps cfg w l w') {c : C} {fd : Fd}
    {id : ℕ} (hid : w'.hist.latestOpen c fd = some id) :
    id = w.next ∨ (w.hist.latestOpen c fd = some id ∧
      ∀ path, (w'.clients c).fdMap fd = some path → (w.clients c).fdMap fd = some path) := by
  have hsame (hlatest : w'.hist.latestOpen = w.hist.latestOpen)
      (hmap : (w'.clients c).fdMap = (w.clients c).fdMap) :
      id = w.next ∨ (w.hist.latestOpen c fd = some id ∧
        ∀ path, (w'.clients c).fdMap fd = some path → (w.clients c).fdMap fd = some path) := by
    rw [hlatest] at hid
    exact .inr ⟨hid, fun path hp ↦ by rwa [hmap] at hp⟩
  have hpost {c' : C} {k : Call} {cell : Addr} {cl : Client} {s : Sent}
      (hs : Started cfg (w.clients c') cell k cl (some s))
      (hlatest : w'.hist.latestOpen = (w.noteOpen c' k (some w.next)).hist.latestOpen)
      (hfm : (w'.clients c').fdMap = cl.fdMap)
      (hothers : ∀ d, d ≠ c' → w'.clients d = w.clients d) :=
    (post_latest hs hlatest hfm hothers hid).imp_left And.left
  have hmaps := steps_maps hs
  cases hs with
  | returnNow c' k cell cl hb hs => exact .inr (returnNow_latest hs rfl hid)
  | fire c' k cell cl s hb hs hcb =>
    refine hpost hs rfl ?_ fun d hd ↦ ?_
    · simp [returned, setClient, (finishCall_maps cfg cl k 0).1]
    · simp [returned, setClient, post, setFlight, hd]
  | block c' k cell cl s hb hs hcb =>
    refine hpost hs rfl ?_ fun d hd ↦ ?_
    · simp [setClient]
    · simp [setClient, post, setFlight, hd]
  | serve j env f hf hst ha =>
    refine hsame ?_ (hmaps rfl (by simp) c).1
    cases (w.servers f.sent.host).handle f.sent.request env with
    | responded srv out =>
      simp only [handled, noteServed]
      split <;> rfl
    | _ => rfl
  | reply j f out cl hf hst hc =>
    refine hsame ?_ (reply_fdMap hc c)
    cases f.sent.callback <;> rfl
  | _ => exact hsame rfl (hmaps rfl (by simp) c).1

theorem steps_linked {w w' : World C} {l : Label C} (h : Linked cfg w) (hs : Steps cfg w l w') :
    Linked cfg w' := by
  have hkeep (hserved : w'.hist.served = w.hist.served) : Linked cfg w' :=
    h.keep (steps_tracks h.tracks hs) (steps_next hs) hserved fun _ _ _ ↦ steps_latest hs
  have ht := steps_tracks h.tracks hs
  cases hs with
  | returnNow c k cell cl hb hs =>
    apply hkeep
    cases k <;> rfl
  | fire c k cell cl s hb hs hcb =>
    apply hkeep
    cases k <;> rfl
  | block c k cell cl s hb hs hcb =>
    apply hkeep
    cases k <;> rfl
  | serve id env f hf hst ha => exact served_linked h hf _ ht
  | reply id f out cl hf hst hc =>
    apply hkeep
    cases f.sent.callback <;> rfl
  | _ => exact hkeep rfl

omit [DecidableEq C] in
theorem start_linked (job : Job) : Linked job.cfg (job.start C) := by
  refine ⟨start_tracks job, ?_, ?_⟩ <;> simp [Job.start]

section Clear

variable {cl cl' : Client} {k : Call} {cell : Addr} {s : Option Sent} {fd : Fd}

theorem started_clear (h : Started cfg cl cell k cl' s)
    (hk : ∀ path flags, k ≠ .openFile path flags fd) (hc : Clear cl fd) : Clear cl' fd := by
  obtain ⟨hm, hr⟩ := hc
  have hne {p : Path} {j : Fd} (hp : cl.fdMap j = some p) : fd ≠ j := by
    intro he
    subst he
    simp [hm] at hp
  cases h with
  | openUntracked => exact ⟨hm, hr⟩
  | openOver path p flags j =>
    have hj : fd ≠ j := fun he ↦ hk path flags (he ▸ rfl)
    exact ⟨by simp [hj, hm], hr⟩
  | openSent path p flags j =>
    have hj : fd ≠ j := fun he ↦ hk path flags (he ▸ rfl)
    exact ⟨by simp [hj, hm], hr⟩
  | transferLocal => exact ⟨hm, hr⟩
  | transferSent k p j buf count offset cache hk hp ho =>
    exact ⟨hm, by simp [hne hp, hr]⟩
  | lseekLocal => exact ⟨hm, hr⟩
  | lseekSent p j offset whence cache hp => exact ⟨hm, by simp [hne hp, hr]⟩
  | closeLocal j hl => exact ⟨by by_cases hj : fd = j <;> simp [hj, hm], hr⟩
  | closeSent p j cache hp ho => exact ⟨by simp [hne hp, hm], by simp [hne hp, hr]⟩

theorem started_close_clear (h : Started cfg cl cell (.close fd) cl' s) {p : Path}
    (hp : cl.fdMap fd = some p) :
    Clear cl' fd ↔ (cl.overLimit (cfg.host p) → cl.fdRedirMap fd = none) := by
  cases h with
  | transferLocal k j buf count offset hk hl => simp [Call.transfer] at hk
  | transferSent k q j buf count offset cache hk => simp [Call.transfer] at hk
  | closeLocal j hl => simp [Clear, hl p hp]
  | closeSent q j cache hq ho =>
    obtain rfl : q = p := Option.some.inj (hq.symm.trans hp)
    simp [Clear, ho]

theorem finish_clear (cl : Client) (k : Call) (ret : ℤ) :
    Clear (cl.finishCall cfg k ret).1 fd ↔ Clear cl fd := by
  simp only [Clear, finishCall_maps]

theorem call_clear {w w' : World C} {c : C} (hs : Steps cfg w (.call c k cell) w') :
    ∃ cl s, Started cfg (w.clients c) cell k cl s ∧ (∀ j, Clear (w'.clients c) j ↔ Clear cl j) ∧
      ∀ c', c' ≠ c → w'.clients c' = w.clients c' := by
  cases hs with
  | returnNow _ _ _ cl hb hs =>
    refine ⟨cl, none, hs, fun j ↦ ?_, fun c' hc ↦ ?_⟩
    · simpa [returned, setClient] using finish_clear cl k (-1)
    · simp [returned, setClient, hc]
  | fire _ _ _ cl s hb hs hcb =>
    refine ⟨cl, some s, hs, fun j ↦ ?_, fun c' hc ↦ ?_⟩
    · simpa [returned, setClient] using finish_clear cl k 0
    · simp [returned, setClient, post, setFlight, hc]
  | block _ _ _ cl s hb hs hcb =>
    refine ⟨cl, some s, hs, fun j ↦ ?_, fun c' hc ↦ ?_⟩
    · simp [setClient, Clear]
    · simp [setClient, post, setFlight, hc]

end Clear

section Step

variable {a b : Watch C} {l : Label C}

theorem Watch.step_steps (h : a.step cfg l = some b) :
    Steps cfg a.world l b.world ∧ b.closed = a.marks l := by
  obtain ⟨w, hw, rfl⟩ := Option.map_eq_some_iff.mp h
  exact ⟨World.step_steps hw, rfl⟩

theorem Watch.mark_of_ne {c c' : C} {fd fd' : Fd} (h : ¬(c' = c ∧ fd' = fd)) (m : Bool) :
    a.mark c fd m c' fd' = a.closed c' fd' := by
  by_cases hc : c' = c
  · subst c'
    have hfd : fd' ≠ fd := fun he ↦ h ⟨rfl, he⟩
    simp [Watch.mark, hfd]
  · simp [Watch.mark, hc]

/-- A step that clears neither entry of the descriptors it leaves alone keeps the trace away. -/
theorem noTrace_of_marked (hn : NoTrace a) {c : C} {fd : Fd} {m : Bool}
    (hb : b.closed = a.mark c fd m)
    (hclear : ∀ c' j, ¬(c' = c ∧ j = fd) → Clear (a.world.clients c') j →
      Clear (b.world.clients c') j) :
    NoTrace b ↔ (m = true → Clear (b.world.clients c) fd) := by
  constructor
  · intro hnb hm
    exact hnb c fd (by simp [hb, Watch.mark, hm])
  · intro hfd c' j hj
    rw [hb] at hj
    by_cases hsame : c' = c ∧ j = fd
    · obtain ⟨rfl, rfl⟩ := hsame
      exact hfd (by simpa [Watch.mark] using hj)
    · rw [Watch.mark_of_ne hsame] at hj
      exact hclear c' j hsame (hn c' j hj)

omit [DecidableEq C] in
theorem noTrace_of_clear (hn : NoTrace a) (hb : b.closed = a.closed)
    (hclear : ∀ c j, Clear (a.world.clients c) j → Clear (b.world.clients c) j) : NoTrace b := by
  intro c j hj
  rw [hb] at hj
  exact hclear c j (hn c j hj)

theorem call_noTrace (hn : NoTrace a) {c : C} {k : Call} {cell : Addr}
    (h : a.step cfg (.call c k cell) = some b) (hk : ∀ fd, k ≠ .close fd) : NoTrace b := by
  obtain ⟨hs, hb⟩ := Watch.step_steps h
  obtain ⟨cl, s, hst, hcl, hother⟩ := call_clear hs
  have hkept (c' : C) (j : Fd) (hno : ¬(c' = c ∧ ∃ path flags, k = .openFile path flags j))
      (hc : Clear (a.world.clients c') j) : Clear (b.world.clients c') j := by
    by_cases hcc : c' = c
    · subst c'
      rw [hcl]
      exact started_clear hst (fun path flags he ↦ hno ⟨rfl, path, flags, he⟩) hc
    · rwa [hother c' hcc]
  cases k with
  | openFile path flags fd =>
    refine (noTrace_of_marked hn hb fun c' j hne ↦ hkept c' j fun he ↦ hne ?_).mpr (by simp)
    obtain ⟨hc, _, _, he⟩ := he
    cases he
    exact ⟨hc, rfl⟩
  | close fd => exact absurd rfl (hk fd)
  | read => exact noTrace_of_clear hn hb fun c' j ↦ hkept c' j (by simp)
  | pread => exact noTrace_of_clear hn hb fun c' j ↦ hkept c' j (by simp)
  | lseek => exact noTrace_of_clear hn hb fun c' j ↦ hkept c' j (by simp)

theorem close_noTrace (hn : NoTrace a) {c : C} {fd : Fd} {cell : Addr}
    (h : a.step cfg (.call c (.close fd) cell) = some b) :
    NoTrace b ↔ ∀ p ∈ (a.world.clients c).fdMap fd,
      (a.world.clients c).overLimit (cfg.host p) → (a.world.clients c).fdRedirMap fd = none := by
  obtain ⟨hs, hb⟩ := Watch.step_steps h
  obtain ⟨cl, s, hst, hcl, hother⟩ := call_clear hs
  have hkept (c' : C) (j : Fd) (hc : Clear (a.world.clients c') j) :
      Clear (b.world.clients c') j := by
    by_cases hcc : c' = c
    · subst c'
      rw [hcl]
      exact started_clear hst (by simp) hc
    · rwa [hother c' hcc]
  cases hp : (a.world.clients c).fdMap fd with
  | none =>
    have hn' := noTrace_of_clear hn (by simpa [Watch.marks, hp] using hb) hkept
    simp [hn']
  | some p =>
    rw [noTrace_of_marked hn (m := true) (by simpa [Watch.marks, hp] using hb)
      fun c' j _ ↦ hkept c' j]
    simp [hcl, started_close_clear hst hp]

omit [DecidableEq C] in
theorem complete_clear {cl cl' : Client} {out : ℤ} {cb : Callback}
    (h : cl.complete out cb = .ok cl') (j : Fd) :
    Clear cl' j ↔ Clear cl j ∧ ∀ fd ∈ openReply cb, fd ≠ j := by
  cases cb with
  | openCb fd cell =>
    cases h
    by_cases hj : j = fd
    · simp [Clear, setDone, openReply, hj]
    · simp [Clear, setDone, openReply, hj, Ne.symm hj]
  | readCb buf cell =>
    cases h
    simp [Clear, openReply]
  | seekCb =>
    cases h
    simp [Clear, ftcSeekCb, openReply]
  | none =>
    cases h
    simp [openReply]

/-- An open reply brings its descriptor back into `fd_redir_map`. -/
theorem reply_noTrace (hn : NoTrace a) {id : ℕ} (h : a.step cfg (.reply id) = some b) :
    NoTrace b ↔ ∀ f ∈ a.world.net id, ∀ fd ∈ openReply f.sent.callback,
      a.closed f.client fd = false := by
  obtain ⟨hs, hb⟩ := Watch.step_steps h
  obtain ⟨w, closed, closes⟩ := b
  obtain rfl : closed = a.closed := hb
  cases hs with
  | reply _ f out cl hf hst hc =>
    have hclear (c : C) (j : Fd) : Clear ((((a.world.setClient f.client cl).dropFlight id).noteReply
        id f.client f.sent.callback).clients c) j ↔
        Clear (a.world.clients c) j ∧
          (c = f.client → ∀ fd ∈ openReply f.sent.callback, fd ≠ j) := by
      by_cases hcf : c = f.client
      · subst c
        simpa [setClient, dropFlight] using complete_clear hc j
      · simp [setClient, dropFlight, hcf]
    simp only [hf, Option.mem_some_iff, forall_eq']
    constructor
    · intro hnb fd hfd
      by_contra hclosed
      have hj := hnb f.client fd (by simpa using hclosed)
      exact ((hclear _ _).mp hj).2 rfl fd hfd rfl
    · intro hopen c j hj
      refine (hclear c j).mpr ⟨hn c j hj, fun hc fd hfd he ↦ ?_⟩
      subst hc he
      rw [hopen fd hfd] at hj
      cases hj

theorem other_noTrace (hn : NoTrace a) (h : a.step cfg l = some b) (hcall : l.calling = none)
    (hreply : ∀ id, l ≠ .reply id) : NoTrace b := by
  obtain ⟨hs, hb⟩ := Watch.step_steps h
  have hmarks : a.marks l = a.closed := by
    cases l with
    | call => cases hcall
    | _ => rfl
  apply noTrace_of_clear hn (hb.trans hmarks)
  intro c j hj
  obtain ⟨hm, hr⟩ := steps_maps hs hcall hreply c
  simpa only [Clear, hm, hr] using hj

end Step

section Release

variable {a b : Watch C} {c : C} {fd : Fd} {cell : Addr} {p : Path}

/-- What a close of a tracked descriptor sends, and the counters it leaves alone. -/
theorem close_sends {w w' : World C} (hnet : NetOk cfg w.net w.next)
    (hs : Steps cfg w (.call c (.close fd) cell) w') (hp : (w.clients c).fdMap fd = some p) :
    (w'.clients c).timeoutCounters = (w.clients c).timeoutCounters ∧
      closeSent w w' = if (w.clients c).overLimit (cfg.host p) then none
        else some (cfg.host p, (w.clients c).fdRedirMap.index fd) := by
  cases hs with
  | returnNow _ _ _ cl hb hs =>
    refine ⟨by simp [returned, setClient, finishCall_counters, started_counters hs], ?_⟩
    cases hs with
    | transferLocal _ j buf count offset hk hl => cases hk
    | closeLocal _ hl =>
      rw [if_pos (hl p hp)]
      simp [closeSent, returned, setClient, hnet.fresh w.next le_rfl]
  | fire _ _ _ cl s hb hs hcb =>
    refine ⟨by simp [returned, setClient, finishCall_counters, started_counters hs], ?_⟩
    cases hs with
    | transferSent _ q j buf count offset cache hk => cases hk
    | closeSent q _ cache hq ho =>
      obtain rfl : q = p := Option.some.inj (hq.symm.trans hp)
      rw [if_neg ho]
      simp [closeSent, returned, setClient, post, setFlight]
  | block _ _ _ cl s hb hs hcb =>
    cases hs with
    | transferSent _ q j buf count offset cache hk => cases hk
    | closeSent q _ cache hq ho => exact absurd rfl hcb

omit [DecidableEq C] in
theorem openedFor_host {w : World C} (h : Linked cfg w) (hp : (w.clients c).fdMap fd = some p)
    {x : ℕ × Host × Fd} (hx : x ∈ openedFor w c fd) :
    opened w x.1 = some x.2 ∧ x.2.1 = cfg.host p := by
  obtain ⟨id, hid, hx⟩ := Option.bind_eq_some_iff.mp hx
  obtain ⟨y, hy, rfl⟩ := Option.map_eq_some_iff.mp hx
  refine ⟨hy, ?_⟩
  obtain ⟨z, hz, hy⟩ := Option.bind_eq_some_iff.mp hy
  obtain ⟨-, he⟩ := Option.ite_none_right_eq_some.mp hy
  cases he
  exact h.host c fd id p z hid hp hz

omit [DecidableEq C] in
theorem count_iff {w w' : World C} {x : ℕ × Host × Fd} {host : Host} {s : Fd} {n : ℕ}
    (ho : opened w x.1 = some x.2) (hh : x.2.1 = host) (hs : closeSent w w' = some (host, s)) :
    n + (if (opened w x.1).isSome ∧ opened w x.1 = closeSent w w' then 1 else 0) = 1 ↔
      n = if s = x.2.2 then 0 else 1 := by
  obtain ⟨id, h, d⟩ := x
  simp only at ho hh
  subst hh
  rw [ho, hs]
  by_cases hd : s = d
  · simp [hd]
  · simp [hd, Ne.symm hd]

theorem released_iff (hl : Linked cfg a.world)
    (h : a.step cfg (.call c (.close fd) cell) = some b) :
    Released a (.call c (.close fd) cell) b ↔ ∀ p ∈ (a.world.clients c).fdMap fd,
      ¬(a.world.clients c).overLimit (cfg.host p) → ∀ x ∈ openedFor a.world c fd,
        a.closes x.1 = if (a.world.clients c).fdRedirMap.index fd = x.2.2 then 0 else 1 := by
  have hsame : Released a (.call c (.close fd) cell) b ↔
      (((a.world.clients c).fdMap fd).isSome → ∀ x ∈ openedFor a.world c fd,
        b.closes x.1 = 1 ∨ (b.world.clients c).overLimit x.2.1) := by
    constructor
    · intro hr
      exact hr c fd cell rfl
    · intro hr c' fd' cell' he
      cases he
      exact hr
  rw [hsame]
  cases hp : (a.world.clients c).fdMap fd with
  | none => simp
  | some p =>
    obtain ⟨w, hw, rfl⟩ := Option.map_eq_some_iff.mp h
    obtain ⟨hcount, hsent⟩ := close_sends hl.tracks.net (World.step_steps hw) hp
    simp only [Option.isSome_some, forall_true_left, Option.mem_some_iff, forall_eq', overLimit,
      hcount]
    have hx (x : ℕ × Host × Fd) (hx : x ∈ openedFor a.world c fd) := openedFor_host hl hp hx
    by_cases ho : (a.world.clients c).overLimit (cfg.host p)
    · -- the host has been declared failed
      constructor
      · intro _ hno
        exact absurd ho hno
      · intro _ x hmem
        right
        rw [(hx x hmem).2]
        exact ho
    · rw [if_neg ho] at hsent
      constructor
      · intro hr _ x hmem
        obtain ⟨hopened, hhost⟩ := hx x hmem
        refine (count_iff hopened hhost hsent).mp ((hr x hmem).resolve_right ?_)
        rwa [hhost]
      · intro hr x hmem
        obtain ⟨hopened, hhost⟩ := hx x hmem
        exact .inl ((count_iff hopened hhost hsent).mpr (hr ho x hmem))

end Release

/-- One step closes without a trace exactly if it goes well. -/
theorem step_well_iff {a b : Watch C} {l : Label C} (hl : Linked cfg a.world) (hn : NoTrace a)
    (h : a.step cfg l = some b) : (NoTrace b ∧ Released a l b) ↔ Well cfg a l := by
  have hother (hno : ∀ c fd cell, l ≠ .call c (.close fd) cell) : Released a l b :=
    fun c fd cell he ↦ absurd he (hno c fd cell)
  cases l with
  | call c k cell =>
    cases k with
    | close fd =>
      rw [close_noTrace hn h, released_iff hl h]
      constructor
      · intro hx p hp
        split
        case isTrue ho => exact hx.1 p hp ho
        case isFalse ho => exact hx.2 p hp ho
      · intro hw
        refine ⟨fun p hp ho ↦ ?_, fun p hp ho ↦ ?_⟩
        · simpa only [if_pos ho] using hw p hp
        · simpa only [if_neg ho] using hw p hp
    | _ => exact iff_of_true ⟨call_noTrace hn h (by simp), hother (by simp)⟩ trivial
  | reply id =>
    rw [and_iff_left (hother (by simp))]
    exact reply_noTrace hn h
  | _ => exact iff_of_true ⟨other_noTrace hn h rfl (by simp), hother (by simp)⟩ trivial

/-- Closing leaves no trace in any state of a run exactly if all its steps go well. -/
theorem closing_leaves_no_trace (job : Job) (ls : List (Label C)) {b : Watch C}
    (h : exec (Watch.step job.cfg) (.start (job.start C)) ls = some b) :
    Along (Watch.step job.cfg) (fun a l ↦ ∀ c ∈ a.step job.cfg l, NoTrace c ∧ Released a l c)
        (.start (job.start C)) ls ↔
      Along (Watch.step job.cfg) (Well job.cfg) (.start (job.start C)) ls := by
  apply Along.congr_of_step (I := fun a ↦ Linked job.cfg a.world ∧ NoTrace a) _ _ h
  · intro a l c hi hs
    obtain ⟨hl, hn⟩ := hi
    have hstep := step_well_iff hl hn hs
    simp only [hs, Option.mem_some_iff, forall_eq']
    refine ⟨hstep, fun hw ↦ ⟨?_, (hstep.mpr hw).1⟩⟩
    exact steps_linked hl (Watch.step_steps hs).1
  · exact ⟨start_linked job, by simp [NoTrace, Watch.start]⟩

def reopenRun : List (Label Unit) :=
  [.call () (.openFile samplePath 0 3) 8, .serve 0 { opened := some 7 }, .reply 0, .wake (),
    .call () (.close 3) 8, .serve 1 {}, .call () (.openFile otherPath 0 3) 8,
    .serve 2 { opened := some 7 }, .reply 2, .wake (), .call () (.close 3) 8]

theorem closing_leaves_no_trace_reopened :
    Along (Watch.step sampleJob.cfg)
      (fun a l ↦ ∀ c ∈ a.step sampleJob.cfg l, NoTrace c ∧ Released a l c)
      (.start (sampleJob.start Unit)) reopenRun := by
  obtain ⟨b, hb⟩ : ∃ b, exec (Watch.step sampleJob.cfg) (.start (sampleJob.start Unit))
      reopenRun = some b := Option.isSome_iff_exists.mp (by decide +kernel)
  exact (closing_leaves_no_trace sampleJob reopenRun hb).mpr (by decide +kernel)

def lateRun : List (Label Unit) :=
  [.call () (.openFile samplePath 0 3) 8, .serve 0 { opened := some 7 }, .giveUp (),
    .call () (.close 3) 8]

/-- The open times out after the server has opened its descriptor 7. The close names 0, and
the reply that arrives afterwards brings the closed number back. -/
theorem closing_leaves_trace :
    ¬∀ ls : List (Label Unit), Along (Watch.step sampleJob.cfg)
      (fun a l ↦ ∀ c ∈ a.step sampleJob.cfg l, NoTrace c ∧ Released a l c)
      (.start (sampleJob.start Unit)) ls := by
  intro h
  obtain ⟨b, hb, hend⟩ := (Option.any_eq_true _ _).mp (show (exec (Watch.step sampleJob.cfg)
    (.start (sampleJob.start Unit)) lateRun).any (fun b ↦ (b.step sampleJob.cfg (.reply 0)).any
      fun c ↦ c.closed () 3 = true ∧ (c.world.clients ()).fdRedirMap 3 = some 7) = true by
    decide +kernel)
  obtain ⟨c, hc, hend⟩ := (Option.any_eq_true _ _).mp hend
  obtain ⟨hclosed, hredir⟩ := of_decide_eq_true hend
  obtain ⟨hclear, -⟩ := (h (lateRun ++ [.reply 0])).last hb c hc
  simp [(hclear () 3 hclosed).2] at hredir

end FTCache.Closing
