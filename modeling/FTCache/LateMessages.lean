import FTCache.StackFrames

namespace FTCache.LateMessages

open Runs Posix Memory World Client Flights StackFrames

variable {C : Type}

/-- The open or read request `id` is in flight, and no call waits for it any more. -/
def GivenUp (w : World C) (id : ℕ) (f : Flight C) : Prop :=
  f.sent.callback ≠ .none ∧ f.sent.callback ≠ .seekCb ∧
    ∀ p ∈ (w.clients f.client).blocked, p.request ≠ id

instance (w : World C) (id : ℕ) (f : Flight C) : Decidable (GivenUp w id f) :=
  inferInstanceAs (Decidable (f.sent.callback ≠ .none ∧ f.sent.callback ≠ .seekCb ∧
    ∀ p ∈ (w.clients f.client).blocked, p.request ≠ id))

/-- The addresses that a later step looks at: those the application uses, and the frame of the
call the client is blocked in. -/
def Seen (y : Layout) (s : Spaces C) (c : C) (a : Addr) : Prop :=
  s.inUse c a = true ∨
    ∃ p ∈ (s.world.clients c).blocked, framed p.call = true ∧ Within p.cell y.size a

instance (y : Layout) (s : Spaces C) (c : C) : DecidablePred (Seen y s c) := fun a ↦
  inferInstanceAs (Decidable (s.inUse c a = true ∨
    ∃ p ∈ (s.world.clients c).blocked, framed p.call = true ∧ Within p.cell y.size a))

/-- The file that the open request `id` was for is still open as `fd`. -/
def StillOpen (w : World C) (c : C) (fd : Fd) (id : ℕ) : Prop :=
  w.hist.latestOpen c fd = some id ∧ ((w.clients c).fdMap fd).isSome

instance (w : World C) (c : C) (fd : Fd) (id : ℕ) : Decidable (StillOpen w c fd id) :=
  inferInstanceAs (Decidable (_ ∧ _))

/-- An open reply finds its file still open, or its number in the map already. -/
def KeepsEntry (w : World C) (id : ℕ) (f : Flight C) (l : Label C) : Prop :=
  match l, f.stage, f.sent.callback with
  | .reply _, .reply out, .openCb fd _ =>
    StillOpen w f.client fd id ∨ (w.clients f.client).fdRedirMap fd = some out
  | _, _, _ => True

instance (w : World C) (id : ℕ) (f : Flight C) (l : Label C) : Decidable (KeepsEntry w id f l) := by
  unfold KeepsEntry
  split <;> infer_instance

/-- What a message writes is there already wherever it is seen. -/
def Misses (y : Layout) (s : Spaces C) (id : ℕ) (f : Flight C) (l : Label C) : Prop :=
  let m := (s.world.clients f.client).memory
  Spares (Seen y s f.client) m (stored y m f l) ∧ KeepsEntry s.world id f l

instance (y : Layout) (s : Spaces C) (id : ℕ) (f : Flight C) (l : Label C) :
    Decidable (Misses y s id f l) :=
  inferInstanceAs (Decidable (_ ∧ _))

/-- A message that a step delivers after its request was given up hits nothing. -/
def Harmless (y : Layout) (s : Spaces C) (m : Move C) : Prop :=
  ∀ l ∈ m.label, ∀ id ∈ delivers l, ∀ f ∈ s.world.net id, GivenUp s.world id f → Misses y s id f l

instance (y : Layout) (s : Spaces C) (m : Move C) : Decidable (Harmless y s m) :=
  inferInstanceAs (Decidable (∀ l ∈ m.label, ∀ id ∈ delivers l, ∀ f ∈ s.world.net id,
    GivenUp s.world id f → Misses y s id f l))

/-- The delivery of message `id` leaves as they were: what the application of client `c` has in
its memory, the frame of the call that `c` is blocked in, with `done` and `bytes_read`, and the
server descriptor of every number but that of the file that `id` has opened. -/
structure Unchanged (y : Layout) (s s' : Spaces C) (id : ℕ) (c : C) : Prop where
  memory : ∀ a, s.inUse c a = true →
    (s'.world.clients c).memory a = (s.world.clients c).memory a
  frame : ∀ p ∈ (s.world.clients c).blocked, framed p.call = true → ∀ a, Within p.cell y.size a →
    (s'.world.clients c).memory a = (s.world.clients c).memory a
  redir : ∀ fd, ¬StillOpen s.world c fd id →
    (s'.world.clients c).fdRedirMap fd = (s.world.clients c).fdRedirMap fd

theorem redir_kept_iff {m : PMap Fd Fd} {fd s : Fd} {P : Fd → Prop} :
    (∀ j, ¬P j → m.insert fd s j = m j) ↔ (P fd ∨ m fd = some s) := by
  constructor
  · intro h
    by_cases hp : P fd
    · exact .inl hp
    · exact .inr (by simpa using (h fd hp).symm)
  · intro h j hj
    by_cases hjf : j = fd
    · subst j
      simp [h.resolve_left hj]
    · simp [hjf]

theorem unchanged_iff {y : Layout} {s s' : Spaces C} {id : ℕ} {c : C} :
    Unchanged y s s' id c ↔
      (∀ a, Seen y s c a → (s'.world.clients c).memory a = (s.world.clients c).memory a) ∧
        ∀ fd, ¬StillOpen s.world c fd id →
          (s'.world.clients c).fdRedirMap fd = (s.world.clients c).fdRedirMap fd := by
  constructor
  · intro h
    refine ⟨fun a ha ↦ ?_, h.redir⟩
    rcases ha with ha | ⟨p, hp, ht, ha⟩
    · exact h.memory a ha
    · exact h.frame p hp ht a ha
  · intro h
    exact ⟨fun a ha ↦ h.1 a (.inl ha), fun p hp ht a ha ↦ h.1 a (.inr ⟨p, hp, ht, ha⟩), h.2⟩

variable [DecidableEq C] {y : Layout} {cfg : Config}

/-- Every given-up request that a step delivers something of leaves its client as it was. -/
def Inert (y : Layout) (cfg : Config) (s : Spaces C) (m : Move C) : Prop :=
  ∀ s' ∈ s.step y cfg m, ∀ l ∈ m.label, ∀ id ∈ delivers l, ∀ f ∈ s.world.net id,
    GivenUp s.world id f → Unchanged y s s' id f.client

/-- Of the replies, an open reply alone changes the map, at the number it was for. -/
theorem keepsEntry_iff {w w' : World C} {l : Label C} {id : ℕ} {f : Flight C}
    (hl : delivers l = some id) (hf : w.net id = some f) (hs : Steps cfg w l w') :
    KeepsEntry w id f l ↔ ∀ fd, ¬StillOpen w f.client fd id →
      ((settle y w w' l).clients f.client).fdRedirMap fd = (w.clients f.client).fdRedirMap fd := by
  cases hs with
  | push j g bytes buf cell hg hst hcb =>
    cases hl
    obtain rfl : g = f := Option.some.inj (hg.symm.trans hf)
    simp [KeepsEntry, settle, settleClient, setClient, setFlight]
  | reply j g out cl hg hst hc =>
    cases hl
    obtain rfl : g = f := Option.some.inj (hg.symm.trans hf)
    have hcl : ((settle y w (((w.setClient g.client cl).dropFlight id).noteReply id g.client
        g.sent.callback) (.reply id)).clients g.client).fdRedirMap = cl.fdRedirMap := by
      simp [settle, settleClient, setClient, dropFlight]
    simp only [hcl]
    cases hk : g.sent.callback with
    | openCb fd cell =>
      rw [hk] at hc
      cases hc
      simp only [KeepsEntry, hst, hk, setDone]
      exact (redir_kept_iff (P := fun j ↦ StillOpen w g.client j id)).symm
    | none =>
      rw [hk] at hc
      cases hc
      simp [KeepsEntry, hst, hk]
    | seekCb =>
      rw [hk] at hc
      cases hc
      simp [KeepsEntry, hst, hk, ftcSeekCb]
    | readCb buf cell =>
      rw [hk] at hc
      cases hc
      simp [KeepsEntry, hst, hk]
  | returnNow => cases hl
  | fire => cases hl
  | block => cases hl
  | serve => cases hl
  | wake => cases hl
  | giveUp => cases hl
  | mover => cases hl
  | store => cases hl

/-- A late message changes nothing its client can see if and only if it hits nothing. -/
theorem unchanged_iff_misses {s : Spaces C} {w : World C} {l : Label C} {id : ℕ} {f : Flight C}
    (hl : delivers l = some id) (hf : s.world.net id = some f) (hs : Steps cfg s.world l w) :
    Unchanged y s ⟨settle y s.world w l, s.uses l⟩ id f.client ↔ Misses y s id f l := by
  rw [unchanged_iff, ← keepsEntry_iff hl hf hs, Misses, spares_iff (stored_apart ..),
    delivered_memory hl hf hs]

omit [DecidableEq C] in
theorem clear_of_delivers {s : Spaces C} {l : Label C} {id : ℕ} (hl : delivers l = some id) :
    s.Clear y l := by
  cases l with
  | call => cases hl
  | _ => trivial

theorem misses_of_stuck {s : Spaces C} {l : Label C} {id : ℕ} {f : Flight C}
    (hl : delivers l = some id) (hf : s.world.net id = some f)
    (hs : World.step cfg s.world l = none) : Misses y s id f l := by
  cases l with
  | push j =>
    cases hl
    refine ⟨?_, trivial⟩
    simp only [stored]
    split
    case h_1 bytes buf cell hst hcb => simp [World.step, World.push, hf, hst, hcb] at hs
    case h_2 => simp [Spares]
  | reply j =>
    cases hl
    have hst (out : ℤ) : f.stage ≠ .reply out := by
      intro hst
      cases hcb : f.sent.callback <;> simp [World.step, World.reply, hf, hst, hcb, complete,
        ftcReadCb, ftcOpenCb, Except.toOption] at hs
    cases hstage : f.stage with
    | request => simp [Misses, stored, hstage, Spares, KeepsEntry]
    | push bytes => simp [Misses, stored, hstage, Spares, KeepsEntry]
    | reply out => exact absurd hstage (hst out)
  | _ => cases hl

theorem inert_iff_harmless (s : Spaces C) (m : Move C) : Inert y cfg s m ↔ Harmless y s m := by
  cases m with
  | release c a n => simp [Inert, Harmless, Move.label]
  | run l =>
    constructor
    · intro h l' hl' id hid f hf hg
      obtain rfl : l = l' := Option.some.inj hl'
      cases hs : World.step cfg s.world l with
      | some w =>
        have hstep : s.step y cfg (.run l) = some ⟨settle y s.world w l, s.uses l⟩ := by
          simp [Spaces.step, clear_of_delivers hid, hs]
        exact (unchanged_iff_misses hid hf (step_steps hs)).mp (h _ hstep l rfl id hid f hf hg)
      | none => exact misses_of_stuck hid hf hs
    · intro h s' hs l' hl' id hid f hf hg
      obtain rfl : l = l' := Option.some.inj hl'
      obtain ⟨l', w, he, -, hw, rfl⟩ | ⟨hnone, -⟩ := step_cases hs
      · cases he
        exact (unchanged_iff_misses hid hf (step_steps hw)).mpr (h l rfl id hid f hf hg)
      · cases hnone

/-- No call that waits with a time limit sees an answer before its own request has left the
network. -/
def OwnAnswers (w : World C) : Prop :=
  ∀ c, ∀ p ∈ (w.clients c).blocked, framed p.call = true → (w.clients c).replied p = true →
    w.net p.request = none

/-- The call a client is blocked in has not found `done` set as long as its own request is in
flight. -/
def Unanswered (w : World C) : Prop :=
  ∀ c, ∀ p ∈ (w.clients c).blocked, framed p.call = true → (w.net p.request).isSome →
    ((w.clients c).cells p.cell).done = false

omit [DecidableEq C] in
theorem ownAnswers_of_unanswered {w : World C} (h : Unanswered w) : OwnAnswers w := by
  intro c p hp ht hr
  by_contra hne
  have hdone := h c p hp ht (Option.isSome_iff_ne_none.mpr hne)
  cases hk : p.call with
  | lseek => simp [hk, framed] at ht
  | close => simp [hk, framed] at ht
  | _ => simp [replied, hk, hdone] at hr

omit [DecidableEq C] in
theorem taken_isSome {w w' : World C} {id : ℕ} {f : Flight C} {r : Handled}
    (hf : w.net id = some f) (ht : Taken w id f r w') {j : ℕ} (hj : (w'.net j).isSome) :
    (w.net j).isSome := by
  by_cases hji : j = id
  · simp [hji, hf]
  · cases ht <;> simpa [setServer, setFlight, dropFlight, hji] using hj

/-- No message but the reply to its own request reaches the frame of a waiting call. -/
theorem delivered_frame {s : Spaces C} {w : World C} {l : Label C} {id : ℕ} {f : Flight C}
    {p : Pending} (h : Consistent y cfg s.world) (hl : Harmless y s (.run l))
    (hid : delivers l = some id) (hf : s.world.net id = some f) (hs : Steps cfg s.world l w)
    (hp : p ∈ (s.world.clients f.client).blocked) (ht : framed p.call = true)
    (hown : id = p.request → l = .push id) {a : ℕ} (ha : Within p.cell y.size a) :
    ((settle y s.world w l).clients f.client).memory a =
      (s.world.clients f.client).memory a := by
  by_cases hreq : id = p.request
  · subst hreq
    obtain rfl := hown rfl
    cases hs with
    | push j g bytes buf cell hg hst hcb =>
      obtain rfl : g = f := Option.some.inj (hg.symm.trans hf)
      have hkept := ownPush_frame h hp hf hst hcb (s.world.clients g.client).memory ha
      simpa [settle, settleClient, writes, setClient, setFlight, stores] using hkept
  · rw [delivered_memory hid hf hs]
    by_cases hcb : f.sent.callback = .none ∨ f.sent.callback = .seekCb
    · rw [stored_silent y _ hcb]
      rfl
    · push Not at hcb
      have hgiven : GivenUp s.world id f :=
        ⟨hcb.1, hcb.2, fun q hq ↦ Option.mem_unique hp hq ▸ Ne.symm hreq⟩
      exact stores_of_spares (hl l rfl id hid f hf hgiven).1 (.inr ⟨p, hp, ht, ha⟩)

theorem steps_unanswered {s : Spaces C} {w : World C} {l : Label C}
    (hcons : Consistent y cfg s.world) (h : Unanswered s.world) (hl : Harmless y s (.run l))
    (hs : Steps cfg s.world l w) : Unanswered (settle y s.world w l) := by
  intro c p hp ht hsome
  -- what the frame has is what `done` is
  have hkept (hold : p ∈ (s.world.clients c).blocked) (hnet : (s.world.net p.request).isSome)
      (hm : ∀ a, Within p.cell y.size a → ((settle y s.world w l).clients c).memory a =
        (s.world.clients c).memory a) :
      (((settle y s.world w l).clients c).cells p.cell).done = false := by
    have hview : ((settle y s.world w l).clients c).cells p.cell =
        (s.world.clients c).cells p.cell := by
      rw [hcons.view c]
      exact y.view_congr fun i hi ↦ hm _ ⟨by omega, by omega⟩
    rw [hview]
    exact h c p hold ht hnet
  cases steps_pends hs hp with
  | blocks k cell cl sent w' he hstart hcb hnext hnet hcl =>
    subst he
    have hwrites : writes y s.world w (.call c k cell) c = y.setUp cell k := by
      simp [writes, hcl]
    simp only [settle, settleClient, hwrites]
    exact (y.view_setUp _ cell ht).1
  | aside l w' hl' hserve hold hnext hnet hcl =>
    refine hkept hold (hnet (hcons.calls c p hold).issued ▸ hsome) fun a _ ↦ ?_
    simp [settle, settleClient, writes_aside hl', hcl, stores]
  | served env f hold hf hst =>
    have htaken := handled_taken s.world p.request (hcons.net.kind p.request f hf)
      (s.world.servers f.sent.host) env
    refine hkept hold (taken_isSome hf htaken hsome) fun a _ ↦ ?_
    simp [settle, settleClient, writes, handled_clients, stores]
  | pushed id f bytes buf cell hold hf hst hcb =>
    have hold' : (s.world.net p.request).isSome := by
      by_cases hji : p.request = id
      · simp [hji, hf]
      · simpa [settle, setClient, setFlight, hji] using hsome
    refine hkept hold hold' fun a ha ↦ ?_
    by_cases hc : c = f.client
    · subst hc
      exact delivered_frame hcons hl rfl hf hs hold ht (fun _ ↦ rfl) ha
    · simp [settle, settleClient, writes, setClient, setFlight, hc, stores]
  | replied id f out cl hold hf hst hcomp =>
    have hne : p.request ≠ id := by
      rintro rfl
      simp [settle, setClient, dropFlight] at hsome
    refine hkept hold (by simpa [settle, setClient, dropFlight, hne] using hsome) fun a ha ↦ ?_
    by_cases hc : c = f.client
    · subst hc
      exact delivered_frame hcons hl rfl hf hs hold ht (fun he ↦ absurd he (Ne.symm hne)) ha
    · obtain ⟨client, sent, stage⟩ := f
      simp only at hst hc
      subst hst
      simp [settle, settleClient, writes, hf, setClient, dropFlight, hc, Ne.symm hc, stores]

def fallbackRun : List (Move Unit) :=
  [.run (.call () (.openFile samplePath 0 3) 1000), .run (.serve 0 { opened := some 7 }),
    .run (.reply 0), .run (.wake ()), .run (.call () (.read 3 64 4) 1000), .run (.giveUp ()),
    .run (.serve 1 {})]

end FTCache.LateMessages
