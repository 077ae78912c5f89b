import FTCache.Flights

namespace FTCache.Translation

open Runs Posix World Client Flights

variable {C : Type} {cfg : Config}

/-- The server descriptor a request carries. -/
def carried : Request → Option Fd
  | .openRpc _ => none
  | .baseRpc inp => some inp.accessfd
  | .seekRpc inp => some inp.fd
  | .closeRpc inp => some inp.fd

/-- A call of a client that forwards a request. -/
structure Sending (C : Type) where
  client : C
  call : Call
  sent : Sent

/-- What a step forwards, when it is a call that forwards something. -/
def sends (cfg : Config) (w : World C) : Label C → Option (Sending C)
  | .call c k cell =>
    if (w.clients c).blocked.isSome then none
    else ((w.clients c).startCall cfg k cell).bind fun r ↦ r.2.map fun s ↦ ⟨c, k, s⟩
  | _ => none

/-- A request that carries a server descriptor carries the one its host returned
for the latest open of the local descriptor, and this reply has arrived. -/
def Translated (cfg : Config) (w : World C) (l : Label C) : Prop :=
  ∀ x ∈ sends cfg w l, ∀ a ∈ carried x.sent.request,
    ∃ id path, w.hist.latestOpen x.client x.call.fd = some id ∧ w.net id = none ∧
      (w.clients x.client).fdMap x.call.fd = some path ∧
      w.hist.served id = some (x.sent.host, path, a)

/-- A request that carries a server descriptor is only sent while the last open
reply that arrived for its local descriptor answers the latest open of it. -/
def UpToDate (cfg : Config) (w : World C) (l : Label C) : Prop :=
  ∀ x ∈ sends cfg w l, ∀ _ ∈ carried x.sent.request,
    (w.hist.latestOpen x.client x.call.fd).isSome ∧
      w.hist.lastReply x.client x.call.fd = w.hist.latestOpen x.client x.call.fd

instance (cfg : Config) (w : World C) (l : Label C) : Decidable (UpToDate cfg w l) :=
  inferInstanceAs (Decidable (∀ x ∈ sends cfg w l, ∀ _ ∈ carried x.sent.request,
    (w.hist.latestOpen x.client x.call.fd).isSome ∧
      w.hist.lastReply x.client x.call.fd = w.hist.latestOpen x.client x.call.fd))

theorem started_of_sends {w : World C} {l : Label C} {x : Sending C} (h : x ∈ sends cfg w l) :
    ∃ cell cl, Started cfg (w.clients x.client) cell x.call cl (some x.sent) := by
  cases l with
  | call c k cell =>
    simp only [sends] at h
    split at h
    · cases h
    · obtain ⟨r, hr, hx⟩ := Option.bind_eq_some_iff.mp h
      obtain ⟨s, hs, rfl⟩ := Option.map_eq_some_iff.mp hx
      exact ⟨cell, r.1, startCall_started (by rw [hr, ← hs])⟩
  | serve => cases h
  | push => cases h
  | reply => cases h
  | wake => cases h
  | giveUp => cases h
  | mover => cases h
  | store => cases h

/-- How the open requests, their replies and the client maps hang together in every run. -/
structure Tracks (cfg : Config) (w : World C) : Prop where
  net : NetOk cfg w.net w.next
  served : ∀ id f fd cell s, w.net id = some f → f.sent.callback = .openCb fd cell →
    f.stage = .reply s → w.hist.served id = some (f.sent.host, f.sent.path, s)
  arrived : ∀ c fd id, w.hist.lastReply c fd = some id → id < w.next ∧ w.net id = none
  latest : ∀ c fd id f, w.hist.latestOpen c fd = some id → w.net id = some f →
    f.client = c ∧ (∃ cell, f.sent.callback = .openCb fd cell) ∧
      ∀ path, (w.clients c).fdMap fd = some path → f.sent.path = path
  issued : ∀ c fd id, w.hist.latestOpen c fd = some id → id < w.next
  entry : ∀ c fd id path, w.hist.latestOpen c fd = some id → w.hist.lastReply c fd = some id →
    (w.clients c).fdMap fd = some path → ∃ s, (w.clients c).fdRedirMap fd = some s ∧
      w.hist.served id = some (cfg.host path, path, s)

theorem translated_of_upToDate {w : World C} {l : Label C} (h : Tracks cfg w)
    (hl : UpToDate cfg w l) : Translated cfg w l := by
  rintro ⟨c, k, s⟩ hsend a ha
  obtain ⟨hsome, hlast⟩ := hl _ hsend a ha
  obtain ⟨id, hlatest⟩ := Option.isSome_iff_exists.mp hsome
  rw [hlatest] at hlast
  obtain ⟨cell, cl, hstart⟩ := started_of_sends hsend
  have hentry := h.entry c k.fd id s.path hlatest hlast
  refine ⟨id, s.path, hlatest, (h.arrived c k.fd id hlast).2, ?_⟩
  simp only at hstart ⊢
  cases hstart with
  | openSent => cases ha
  | transferSent k p fd buf count offset cache hk hp ho =>
    rw [Call.fd_of_transfer hk] at hentry ⊢
    obtain ⟨t, ht, hserved⟩ := hentry hp
    cases ha
    exact ⟨hp, by simpa [transferIn, PMap.index_of_some ht] using hserved⟩
  | lseekSent p fd offset whence cache hp =>
    rw [Call.fd] at hentry
    obtain ⟨t, ht, hserved⟩ := hentry hp
    cases ha
    exact ⟨hp, by simpa [PMap.index_of_some ht] using hserved⟩
  | closeSent p fd cache hp ho =>
    rw [Call.fd] at hentry
    obtain ⟨t, ht, hserved⟩ := hentry hp
    cases ha
    exact ⟨hp, by simpa [PMap.index_of_some ht] using hserved⟩

/-- Requests, replies and history stay; descriptors may be forgotten. -/
theorem Tracks.weaken {w w' : World C} (h : Tracks cfg w) (hnet : w'.net = w.net)
    (hnext : w'.next = w.next)
    (hhist : w'.hist.lastReply = w.hist.lastReply ∧ w'.hist.served = w.hist.served)
    (hlatest : ∀ c fd id, w'.hist.latestOpen c fd = some id → w.hist.latestOpen c fd = some id ∧
      ∀ path, (w'.clients c).fdMap fd = some path → (w.clients c).fdMap fd = some path)
    (hredir : ∀ c fd s, (w.clients c).fdRedirMap fd = some s → ((w'.clients c).fdMap fd).isSome →
      (w'.clients c).fdRedirMap fd = some s) : Tracks cfg w' := by
  obtain ⟨h₂, h₃⟩ := hhist
  refine ⟨?_, ?_, ?_, fun c fd id f hid hf ↦ ?_, fun c fd id hid ↦ ?_,
    fun c fd id path hid hl hp ↦ ?_⟩
  · simpa only [hnet, hnext] using h.net
  · simpa only [hnet, h₃] using h.served
  · simpa only [hnet, hnext, h₂] using h.arrived
  · obtain ⟨hold, hmap⟩ := hlatest c fd id hid
    obtain ⟨hc, hcb, hpath⟩ := h.latest c fd id f hold (by rwa [hnet] at hf)
    exact ⟨hc, hcb, fun path hp ↦ hpath path (hmap path hp)⟩
  · rw [hnext]
    exact h.issued c fd id (hlatest c fd id hid).1
  · obtain ⟨hold, hmap⟩ := hlatest c fd id hid
    obtain ⟨s, hs, hserved⟩ := h.entry c fd id path hold (by rwa [h₂] at hl) (hmap path hp)
    exact ⟨s, hredir c fd s hs (by simp [hp]), by rwa [h₃]⟩

theorem Tracks.congr {w w' : World C} (h : Tracks cfg w) (hnet : w'.net = w.net)
    (hnext : w'.next = w.next)
    (hhist : w'.hist.latestOpen = w.hist.latestOpen ∧ w'.hist.lastReply = w.hist.lastReply ∧
      w'.hist.served = w.hist.served)
    (hmaps : ∀ c, (w'.clients c).fdMap = (w.clients c).fdMap ∧
      (w'.clients c).fdRedirMap = (w.clients c).fdRedirMap) : Tracks cfg w' := by
  refine h.weaken hnet hnext hhist.2 (fun c fd id hid ↦ ⟨hhist.1 ▸ hid, fun path hp ↦ ?_⟩)
    fun c fd s hs _ ↦ ?_
  · rwa [(hmaps c).1] at hp
  · rwa [(hmaps c).2]

theorem Tracks.post {w w' : World C} (h : Tracks cfg w) {c : C} {s : Sent} (hk : Kind cfg s)
    (hnet : w'.net = w.net.insert w.next ⟨c, s, .request⟩) (hnext : w'.next = w.next + 1)
    (hhist : w'.hist.lastReply = w.hist.lastReply ∧ w'.hist.served = w.hist.served)
    (hlatest : ∀ c' fd id, w'.hist.latestOpen c' fd = some id →
      (id = w.next ∧ c' = c ∧ (∃ cell, s.callback = .openCb fd cell) ∧
        ∀ path, (w'.clients c').fdMap fd = some path → s.path = path) ∨
      (w.hist.latestOpen c' fd = some id ∧
        ∀ path, (w'.clients c').fdMap fd = some path → (w.clients c').fdMap fd = some path))
    (hredir : ∀ c fd s, (w.clients c).fdRedirMap fd = some s → ((w'.clients c).fdMap fd).isSome →
      (w'.clients c).fdRedirMap fd = some s) : Tracks cfg w' := by
  obtain ⟨h₂, h₃⟩ := hhist
  have hfresh := h.net.fresh w.next le_rfl
  refine ⟨?_, fun j g fd cell t hg hcb hst ↦ ?_, fun c' fd j hj ↦ ?_, fun c' fd j g hj hg ↦ ?_,
    fun c' fd j hj ↦ ?_, fun c' fd j path hj hl hp ↦ ?_⟩
  · rw [hnet, hnext]
    exact post_net h.net hk
  · by_cases hji : j = w.next
    · obtain rfl := Option.some.inj (by simpa [hnet, hji] using hg)
      cases hst
    · rw [h₃]
      exact h.served j g fd cell t (by simpa [hnet, hji] using hg) hcb hst
  · obtain ⟨hlt, hnone⟩ := h.arrived c' fd j (by rwa [h₂] at hj)
    exact ⟨by omega, by simp [hnet, show j ≠ w.next by omega, hnone]⟩
  · rcases hlatest c' fd j hj with ⟨rfl, rfl, hcb, hpath⟩ | ⟨hold, hmap⟩
    · obtain rfl := Option.some.inj (by simpa [hnet] using hg)
      exact ⟨rfl, hcb, hpath⟩
    · have hlt := h.issued c' fd j hold
      obtain ⟨hc, hcb, hpath⟩ := h.latest c' fd j g hold
        (by simpa [hnet, show j ≠ w.next by omega] using hg)
      exact ⟨hc, hcb, fun path hp ↦ hpath path (hmap path hp)⟩
  · rcases hlatest c' fd j hj with ⟨rfl, -⟩ | ⟨hold, -⟩
    · omega
    · have := h.issued c' fd j hold
      omega
  · rw [h₂] at hl
    rcases hlatest c' fd j hj with ⟨rfl, -⟩ | ⟨hold, hmap⟩
    · exact absurd (h.arrived c' fd _ hl).1 (by omega)
    · obtain ⟨t, ht, hserved⟩ := h.entry c' fd j path hold hl (hmap path hp)
      exact ⟨t, hredir c' fd t ht (by simp [hp]), by rwa [h₃]⟩

theorem Tracks.setStage {w w' : World C} (h : Tracks cfg w) {id : ℕ} {f : Flight C}
    (hf : w.net id = some f) (stage : Stage) (hcb : f.sent.callback ≠ .none)
    (hnet : w'.net = w.net.insert id { f with stage := stage }) (hnext : w'.next = w.next)
    (hhist : w'.hist.latestOpen = w.hist.latestOpen ∧ w'.hist.lastReply = w.hist.lastReply)
    (hserved : ∀ j, j ≠ id → w'.hist.served j = w.hist.served j)
    (hnew : ∀ fd cell s, f.sent.callback = .openCb fd cell → stage = .reply s →
      w'.hist.served id = some (f.sent.host, f.sent.path, s))
    (hmap : ∀ c, (w'.clients c).fdMap = (w.clients c).fdMap)
    (hredir : ∀ c, (w'.clients c).fdRedirMap = (w.clients c).fdRedirMap) : Tracks cfg w' := by
  obtain ⟨h₁, h₂⟩ := hhist
  have hne {j : ℕ} (hj : w.net j = none) : j ≠ id := by
    intro he
    subst he
    simp [hf] at hj
  refine ⟨?_, fun j g fd cell s hg hgcb hst ↦ ?_, fun c fd j hj ↦ ?_, fun c fd j g hj hg ↦ ?_,
    fun c fd j hj ↦ ?_, fun c fd j path hj hl hp ↦ ?_⟩
  · rw [hnet, hnext]
    exact setStage_net h.net hf hcb stage
  · by_cases hji : j = id
    · subst j
      obtain rfl := Option.some.inj (by simpa [hnet] using hg)
      exact hnew fd cell s hgcb hst
    · rw [hserved j hji]
      exact h.served j g fd cell s (by simpa [hnet, hji] using hg) hgcb hst
  · obtain ⟨hlt, hnone⟩ := h.arrived c fd j (by rwa [h₂] at hj)
    exact ⟨by omega, by simp [hnet, hne hnone, hnone]⟩
  · rw [h₁] at hj
    rw [hmap]
    by_cases hji : j = id
    · subst j
      obtain rfl := Option.some.inj (by simpa [hnet] using hg)
      exact h.latest c fd id f hj hf
    · exact h.latest c fd j g hj (by simpa [hnet, hji] using hg)
  · rw [hnext]
    exact h.issued c fd j (by rwa [h₁] at hj)
  · rw [h₁] at hj
    rw [h₂] at hl
    rw [hmap] at hp
    rw [hredir, hserved j (hne (h.arrived c fd j hl).2)]
    exact h.entry c fd j path hj hl hp

/-- Starting a call records a path only when it opens, and loses the server
descriptor only of what it closes. -/
theorem started_maps {cl cl' : Client} {k : Call} {cell : Addr} {s : Option Sent}
    (h : Started cfg cl cell k cl' s) :
    (∀ fd path, cl'.fdMap fd = some path → cl.fdMap fd = some path ∨
      ∃ pathname flags, k = .openFile pathname flags fd) ∧
    (∀ fd t, cl.fdRedirMap fd = some t → (cl'.fdMap fd).isSome → cl'.fdRedirMap fd = some t) ∧
    ∀ sent, s = some sent → ∀ pathname flags fd, k = .openFile pathname flags fd →
      sent.callback = .openCb fd cell ∧ cl'.fdMap fd = some sent.path := by
  cases h with
  | openUntracked => exact ⟨fun _ _ h ↦ .inl h, fun _ _ h _ ↦ h, by simp⟩
  | openOver path p flags fd =>
    refine ⟨fun j q hj ↦ ?_, fun _ _ h _ ↦ h, by simp⟩
    by_cases hjf : j = fd
    · exact .inr ⟨path, flags, by rw [hjf]⟩
    · exact .inl (by simpa [hjf] using hj)
  | openSent path p flags fd =>
    refine ⟨fun j q hj ↦ ?_, fun _ _ h _ ↦ h, ?_⟩
    · by_cases hjf : j = fd
      · exact .inr ⟨path, flags, by rw [hjf]⟩
      · exact .inl (by simpa [hjf] using hj)
    · rintro sent ⟨⟩ pathname flags' j ⟨⟩
      exact ⟨rfl, by simp⟩
  | transferLocal => exact ⟨fun _ _ h ↦ .inl h, fun _ _ h _ ↦ h, by simp⟩
  | transferSent k p fd buf count offset cache hk =>
    refine ⟨fun _ _ h ↦ .inl h, fun j t hj _ ↦ PMap.touch_kept hj fd, ?_⟩
    rintro sent ⟨⟩ pathname flags j rfl
    simp [Call.transfer] at hk
  | lseekLocal => exact ⟨fun _ _ h ↦ .inl h, fun _ _ h _ ↦ h, by simp⟩
  | lseekSent p fd =>
    exact ⟨fun _ _ h ↦ .inl h, fun j t hj _ ↦ PMap.touch_kept hj fd, by simp⟩
  | closeLocal fd =>
    refine ⟨fun j q hj ↦ .inl ?_, fun _ _ h _ ↦ h, by simp⟩
    by_cases hjf : j = fd
    · simp [hjf] at hj
    · simpa [hjf] using hj
  | closeSent p fd =>
    refine ⟨fun j q hj ↦ .inl ?_, fun j t hj hs ↦ ?_, by simp⟩
    · by_cases hjf : j = fd
      · simp [hjf] at hj
      · simpa [hjf] using hj
    · by_cases hjf : j = fd
      · simp [hjf] at hs
      · simpa [hjf] using hj

theorem Tracks.drop {w w' : World C} (h : Tracks cfg w) {id : ℕ} {f : Flight C}
    (hf : w.net id = some f) (hnet : w'.net = w.net.erase id) (hnext : w'.next = w.next)
    (hhist : w'.hist.latestOpen = w.hist.latestOpen ∧ w'.hist.served = w.hist.served)
    (hmap : ∀ c, (w'.clients c).fdMap = (w.clients c).fdMap)
    (hlast : ∀ c fd j, w'.hist.lastReply c fd = some j →
      (j = id ∧ c = f.client ∧ (∃ cell, f.sent.callback = .openCb fd cell) ∧
        ∃ s, f.stage = .reply s ∧ (w'.clients c).fdRedirMap fd = some s) ∨
      (w.hist.lastReply c fd = some j ∧
        (w'.clients c).fdRedirMap fd = (w.clients c).fdRedirMap fd)) : Tracks cfg w' := by
  obtain ⟨h₁, h₃⟩ := hhist
  have hold {j : ℕ} {g : Flight C} (hg : w'.net j = some g) : w.net j = some g := by
    by_cases hji : j = id
    · simp [hnet, hji] at hg
    · simpa [hnet, hji] using hg
  refine ⟨?_, fun j g fd cell s hg hcb hst ↦ ?_, fun c fd j hj ↦ ?_, fun c fd j g hj hg ↦ ?_,
    fun c fd j hj ↦ ?_, fun c fd j path hj hl hp ↦ ?_⟩
  · rw [hnet, hnext]
    exact erase_net h.net id
  · rw [h₃]
    exact h.served j g fd cell s (hold hg) hcb hst
  · rw [hnext]
    rcases hlast c fd j hj with ⟨rfl, -⟩ | ⟨hj, -⟩
    · exact ⟨h.net.lt hf, by simp [hnet]⟩
    · obtain ⟨hlt, hnone⟩ := h.arrived c fd j hj
      exact ⟨hlt, by by_cases hji : j = id <;> simp [hnet, hji, hnone]⟩
  · rw [hmap]
    exact h.latest c fd j g (by rwa [h₁] at hj) (hold hg)
  · rw [hnext]
    exact h.issued c fd j (by rwa [h₁] at hj)
  · rw [h₁] at hj
    rw [hmap] at hp
    rw [h₃]
    rcases hlast c fd j hl with ⟨rfl, rfl, ⟨cell, hcb⟩, s, hst, hs⟩ | ⟨hl, hsame⟩
    · obtain ⟨-, -, hpath⟩ := h.latest f.client fd j f hj hf
      have hserved := h.served j f fd cell s hf hcb hst
      rw [(h.net.kind j f hf).host_eq, hpath path hp] at hserved
      exact ⟨s, hs, hserved⟩
    · rw [hsame]
      exact h.entry c fd j path hj hl hp

variable [DecidableEq C]

theorem noteOpen_latest (w : World C) (c : C) (k : Call) (x : Option ℕ) (c' : C) (fd : Fd) :
    (c' = c ∧ (∃ pathname flags, k = .openFile pathname flags fd) ∧
      (w.noteOpen c k x).hist.latestOpen c' fd = x) ∨
    (¬(c' = c ∧ ∃ pathname flags, k = .openFile pathname flags fd) ∧
      (w.noteOpen c k x).hist.latestOpen c' fd = w.hist.latestOpen c' fd) := by
  cases k with
  | openFile path flags j =>
    by_cases hc : c' = c
    · by_cases hj : fd = j
      · subst hc hj
        exact .inl ⟨rfl, ⟨path, flags, rfl⟩, by simp [noteOpen]⟩
      · exact .inr ⟨by simp [Ne.symm hj], by simp [noteOpen, hc, hj]⟩
    · exact .inr ⟨by simp [hc], by simp [noteOpen, hc]⟩
  | read => exact .inr ⟨by simp, rfl⟩
  | pread => exact .inr ⟨by simp, rfl⟩
  | lseek => exact .inr ⟨by simp, rfl⟩
  | close => exact .inr ⟨by simp, rfl⟩

/-- A call that forwards nothing adds no open request and no path to one that stays. -/
theorem returnNow_latest {w w' : World C} {c : C} {k : Call} {cell : Addr} {cl : Client}
    (hs : Started cfg (w.clients c) cell k cl none)
    (hw : w' = (w.noteOpen c k none).returned c k (cl.finishCall cfg k (-1))) {c' : C} {fd : Fd}
    {id : ℕ} (hid : w'.hist.latestOpen c' fd = some id) :
    w.hist.latestOpen c' fd = some id ∧
      ∀ path, (w'.clients c').fdMap fd = some path → (w.clients c').fdMap fd = some path := by
  have hlatest : w'.hist.latestOpen = (w.noteOpen c k none).hist.latestOpen := by rw [hw]; rfl
  rw [hlatest] at hid
  rcases noteOpen_latest w c k none c' fd with ⟨-, -, hnone⟩ | ⟨hno, hsame⟩
  · rw [hnone] at hid
    cases hid
  · refine ⟨hsame ▸ hid, fun path hp ↦ ?_⟩
    by_cases hc : c' = c
    · subst c'
      refine ((started_maps hs).1 fd path ?_).resolve_right fun ho ↦ hno ⟨rfl, ho⟩
      simpa [hw, returned, setClient, (finishCall_maps cfg cl k (-1)).1] using hp
    · simpa [hw, returned, setClient, hc] using hp

/-- A call that forwards a request makes it the latest open of the descriptor it opens. -/
theorem post_latest {w w' : World C} {c : C} {k : Call} {cell : Addr} {cl : Client} {s : Sent}
    (hs : Started cfg (w.clients c) cell k cl (some s))
    (hlatest : w'.hist.latestOpen = (w.noteOpen c k (some w.next)).hist.latestOpen)
    (hfm : (w'.clients c).fdMap = cl.fdMap) (hothers : ∀ c', c' ≠ c → w'.clients c' = w.clients c')
    {c' : C} {fd : Fd} {id : ℕ} (hid : w'.hist.latestOpen c' fd = some id) :
    (id = w.next ∧ c' = c ∧ (∃ cell, s.callback = .openCb fd cell) ∧
        ∀ path, (w'.clients c').fdMap fd = some path → s.path = path) ∨
      (w.hist.latestOpen c' fd = some id ∧
        ∀ path, (w'.clients c').fdMap fd = some path → (w.clients c').fdMap fd = some path) := by
  obtain ⟨hmap, -, hsent⟩ := started_maps hs
  rw [hlatest] at hid
  rcases noteOpen_latest w c k (some w.next) c' fd with
    ⟨rfl, ⟨pathname, flags, hk⟩, hsome⟩ | ⟨hno, hsame⟩
  · obtain ⟨hcb, hpath⟩ := hsent s rfl pathname flags fd hk
    obtain rfl : w.next = id := Option.some.inj (hsome.symm.trans hid)
    refine .inl ⟨rfl, rfl, ⟨cell, hcb⟩, fun path hp ↦ ?_⟩
    rw [hfm] at hp
    exact Option.some.inj (hpath.symm.trans hp)
  · refine .inr ⟨hsame ▸ hid, fun path hp ↦ ?_⟩
    by_cases hc : c' = c
    · subst c'
      exact (hmap fd path (hfm ▸ hp)).resolve_right fun ho ↦ hno ⟨rfl, ho⟩
    · rwa [hothers c' hc] at hp

theorem returnNow_tracks {w w' : World C} (h : Tracks cfg w) {c : C} {k : Call} {cell : Addr}
    {cl : Client} (hs : Started cfg (w.clients c) cell k cl none)
    (hw : w' = (w.noteOpen c k none).returned c k (cl.finishCall cfg k (-1))) : Tracks cfg w' := by
  obtain ⟨-, hredir, -⟩ := started_maps hs
  obtain ⟨hfm, hfr⟩ := finishCall_maps cfg cl k (-1)
  refine h.weaken (by simp [hw, returned, setClient]) (by simp [hw, returned, setClient]) ?_
    (fun _ _ _ ↦ returnNow_latest hs hw) fun c' fd t ht hsome ↦ ?_
  · cases k <;> exact ⟨by rw [hw]; rfl, by rw [hw]; rfl⟩
  · by_cases hc : c' = c
    · subst c'
      simpa [hw, returned, setClient, hfr] using
        hredir fd t ht (by simpa [hw, returned, setClient, hfm] using hsome)
    · simpa [hw, returned, setClient, hc] using ht

theorem post_tracks {w w' : World C} (h : Tracks cfg w) {c : C} {k : Call} {cell : Addr}
    {cl : Client} {s : Sent} (hs : Started cfg (w.clients c) cell k cl (some s))
    (hnet : w'.net = w.net.insert w.next ⟨c, s, .request⟩) (hnext : w'.next = w.next + 1)
    (hhist : w'.hist.lastReply = w.hist.lastReply ∧ w'.hist.served = w.hist.served)
    (hlatest : w'.hist.latestOpen = (w.noteOpen c k (some w.next)).hist.latestOpen)
    (hfm : (w'.clients c).fdMap = cl.fdMap) (hfr : (w'.clients c).fdRedirMap = cl.fdRedirMap)
    (hothers : ∀ c', c' ≠ c → w'.clients c' = w.clients c') : Tracks cfg w' := by
  obtain ⟨-, hredir, -⟩ := started_maps hs
  refine h.post (started_kind hs) hnet hnext hhist
    (fun _ _ _ ↦ post_latest hs hlatest hfm hothers) fun c' fd t ht hsome ↦ ?_
  by_cases hc : c' = c
  · subst c'
    rw [hfr]
    exact hredir fd t ht (hfm ▸ hsome)
  · rwa [hothers c' hc]

omit [DecidableEq C] in
theorem serve_tracks {w : World C} (h : Tracks cfg w) {id : ℕ} {env : Env} {f : Flight C}
    (hf : w.net id = some f) (srv : Server) :
    Tracks cfg (w.handled id f (srv.handle f.sent.request env)) := by
  have hk := h.net.kind id f hf
  have ht := handled_taken w id hk srv env
  generalize srv.handle f.sent.request env = r at ht ⊢
  generalize hw : w.handled id f r = w' at ht ⊢
  cases ht with
  | aborted a => exact h.congr rfl rfl ⟨rfl, rfl, rfl⟩ fun _ ↦ ⟨rfl, rfl⟩
  | pushing srv bytes hcb =>
    exact h.setStage hf (.push bytes) hcb rfl rfl ⟨rfl, rfl⟩ (fun _ _ ↦ rfl)
      (fun _ _ _ _ hst ↦ by cases hst) (fun _ ↦ rfl) fun _ ↦ rfl
  | silent srv hcb =>
    exact h.drop hf rfl rfl ⟨rfl, rfl⟩ (fun _ ↦ rfl) fun _ _ _ hj ↦ .inr ⟨hj, rfl⟩
  | responded srv out hcb =>
    obtain ⟨c, sent, stage⟩ := f
    cases hk with
    | closing => exact absurd rfl hcb
    | transfer =>
      exact h.setStage hf (.reply out) hcb rfl rfl ⟨rfl, rfl⟩ (fun _ _ ↦ rfl)
        (fun _ _ _ hc _ ↦ by cases hc) (fun _ ↦ rfl) fun _ ↦ rfl
    | seeking =>
      exact h.setStage hf (.reply out) hcb rfl rfl ⟨rfl, rfl⟩ (fun _ _ ↦ rfl)
        (fun _ _ _ hc _ ↦ by cases hc) (fun _ ↦ rfl) fun _ ↦ rfl
    | opening path fd cell hp =>
      refine h.setStage hf (.reply out) hcb rfl rfl ⟨rfl, rfl⟩ (fun j hj ↦ ?_)
        (fun fd' cell' s _ hst ↦ ?_) (fun _ ↦ rfl) fun _ ↦ rfl
      · simp [noteServed, setFlight, setServer, hj]
      · cases hst
        simp [noteServed]

theorem reply_tracks {w w' : World C} (h : Tracks cfg w) {id : ℕ} {f : Flight C} {out : ℤ}
    {cl : Client} (hf : w.net id = some f) (hst : f.stage = .reply out)
    (hc : (w.clients f.client).complete out f.sent.callback = .ok cl)
    (hw : w' = ((w.setClient f.client cl).dropFlight id).noteReply id f.client
      f.sent.callback) : Tracks cfg w' := by
  have hk := h.net.kind id f hf
  have hmap (c : C) : (w'.clients c).fdMap = (w.clients c).fdMap := by
    rw [hw]
    exact reply_fdMap hc c
  refine h.drop hf (by simp [hw, setClient, dropFlight]) (by simp [hw, setClient, dropFlight]) ?_
    hmap fun c fd j hj ↦ ?_
  · cases hcb : f.sent.callback <;> rw [hw, hcb] <;> exact ⟨rfl, rfl⟩
  · have hother (hno : ∀ fd cell, f.sent.callback ≠ .openCb fd cell) :
        w.hist.lastReply c fd = some j ∧
          (w'.clients c).fdRedirMap fd = (w.clients c).fdRedirMap fd := by
      have hcl : cl.fdRedirMap = (w.clients f.client).fdRedirMap := by
        cases hcb : f.sent.callback <;> rw [hcb] at hc <;> cases hc
        · exact absurd hcb (hno _ _)
        all_goals rfl
      refine ⟨?_, ?_⟩
      · cases hcb : f.sent.callback <;> rw [hw, hcb] at hj
        · exact absurd hcb (hno _ _)
        all_goals exact hj
      · by_cases hcf : c = f.client
        · subst c
          simp [hw, setClient, dropFlight, hcl]
        · simp [hw, setClient, dropFlight, hcf]
    cases hcb : f.sent.callback with
    | readCb buf cell => exact .inr (hother (by simp [hcb]))
    | seekCb => exact .inr (hother (by simp [hcb]))
    | none => exact .inr (hother (by simp [hcb]))
    | openCb fd' cell =>
      rw [hcb] at hc hw
      cases hc
      by_cases hcf : c = f.client
      · subst c
        by_cases hfd : fd = fd'
        · subst fd
          have hid : id = j := by simpa [hw, noteReply] using hj
          exact .inl ⟨hid.symm, rfl, ⟨cell, rfl⟩, out, hst,
            by simp [hw, setClient, dropFlight, setDone]⟩
        · refine .inr ⟨?_, by simp [hw, setClient, dropFlight, setDone, hfd]⟩
          simpa [hw, noteReply, hfd, setClient, dropFlight] using hj
      · refine .inr ⟨?_, by simp [hw, setClient, dropFlight, hcf]⟩
        simpa [hw, noteReply, hcf, setClient, dropFlight] using hj

theorem steps_tracks {w w' : World C} {l : Label C} (h : Tracks cfg w)
    (hs : Steps cfg w l w') : Tracks cfg w' := by
  have hmaps := steps_maps hs
  cases hs with
  | returnNow c k cell cl hb hs => exact returnNow_tracks h hs rfl
  | fire c k cell cl s hb hs hcb =>
    obtain ⟨hfm, hfr⟩ := finishCall_maps cfg cl k 0
    refine post_tracks h hs (by simp [returned, setClient, post, setFlight])
      (by simp [returned, setClient, post, setFlight]) ?_ rfl
      (by simp [returned, setClient, post, setFlight, hfm])
      (by simp [returned, setClient, post, setFlight, hfr])
      (fun c' hc ↦ by simp [returned, setClient, post, setFlight, hc])
    cases k <;> exact ⟨rfl, rfl⟩
  | block c k cell cl s hb hs hcb =>
    refine post_tracks h hs (by simp [setClient, post, setFlight])
      (by simp [setClient, post, setFlight]) ?_ rfl (by simp [setClient]) (by simp [setClient])
      (fun c' hc ↦ by simp [setClient, post, setFlight, hc])
    cases k <;> exact ⟨rfl, rfl⟩
  | serve id env f hf hst ha => exact serve_tracks h hf _
  | push id f bytes buf cell hf hst hcb =>
    exact h.setStage hf _ (by simp [hcb]) rfl rfl ⟨rfl, rfl⟩ (fun _ _ ↦ rfl)
      (fun _ _ _ hc _ ↦ by simp [hcb] at hc) (fun c ↦ (hmaps rfl (by simp) c).1)
      fun c ↦ (hmaps rfl (by simp) c).2
  | reply id f out cl hf hst hc => exact reply_tracks h hf hst hc rfl
  | _ => exact h.congr rfl rfl ⟨rfl, rfl, rfl⟩ (hmaps rfl (by simp))

omit [DecidableEq C] in
theorem start_tracks (job : Job) : Tracks job.cfg (job.start C) := by
  refine ⟨start_net job C, ?_, ?_, ?_, ?_, ?_⟩ <;> simp [Job.start]

/-- As long as no request is sent for a descriptor whose last arrived open reply
is not that of its latest open, every request names the descriptor its host
returned for that open. -/
theorem requests_translated (job : Job) (w : World C) (l : Label C)
    (h : Reach (World.step job.cfg) (UpToDate job.cfg) (job.start C) w)
    (hl : UpToDate job.cfg w l) : Translated job.cfg w l :=
  translated_of_upToDate (h.invariant (Tracks job.cfg) (start_tracks job) fun _ _ _ hb _ hs ↦
    steps_tracks hb (step_steps hs)) hl

/-- A file is opened, closed and opened again, and its new descriptor is read. -/
theorem requests_translated_reopened :
    ∃ w : World Unit, (sends sampleConfig w (.call () (.read 3 64 4) 8)).isSome ∧
      Translated sampleConfig w (.call () (.read 3 64 4) 8) := by
  obtain ⟨w, hreach, hsend, hl⟩ : ∃ w, Reach (World.step sampleJob.cfg) (UpToDate sampleJob.cfg)
      (sampleJob.start Unit) w ∧ (sends sampleConfig w (.call () (.read 3 64 4) 8)).isSome ∧
      UpToDate sampleConfig w (.call () (.read 3 64 4) 8) :=
    Reach.exists_of_exec [.call () (.openFile samplePath 0 3) 8, .serve 0 { opened := some 7 },
      .reply 0, .wake (), .call () (.close 3) 8, .call () (.openFile otherPath 0 3) 8,
      .serve 2 { opened := some 8 }, .reply 2, .wake ()] (by decide +kernel) (by decide +kernel)
  exact ⟨w, hsend, requests_translated sampleJob w _ hreach hl⟩

/-- The open times out, and the read that follows carries a number nobody returned. -/
theorem requests_not_translated :
    ¬∀ (w : World Unit) (l : Label Unit),
      Reach (World.step sampleJob.cfg) (fun _ _ ↦ True) (sampleJob.start Unit) w →
      Translated sampleJob.cfg w l := by
  intro h
  obtain ⟨w, hreach, hlatest, hnone, x, hx, hfd, hcarried⟩ : ∃ w, Reach (World.step sampleJob.cfg)
      (fun _ _ ↦ True) (sampleJob.start Unit) w ∧ w.hist.latestOpen () 3 = some 0 ∧
      w.hist.served 0 = none ∧ ∃ x ∈ sends sampleJob.cfg w (.call () (.read 3 64 4) 8),
        x.call.fd = 3 ∧ carried x.sent.request = some 0 :=
    Reach.exists_of_exec [.call () (.openFile samplePath 0 3) 8, .giveUp ()] (by decide +kernel)
      (by decide +kernel)
  obtain ⟨id, path, hid, -, -, hserved⟩ := h w _ hreach x hx 0 hcarried
  rw [hfd, hlatest] at hid
  cases hid
  simp [hnone] at hserved

end FTCache.Translation
