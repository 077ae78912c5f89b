import FTCache.DataMover

namespace FTCache.NvmeCache

open Runs Server

/-- Both names refer to files, and to files with the same contents. -/
def SameContents (srv : Server) (p q : Path) : Prop :=
  ∃ b, srv.files p = some b ∧ srv.files q = some b

/-- The mover is not writing to the file `p`. -/
def Settled (srv : Server) (p : Path) : Prop := srv.mover.phase ≠ .copying p

/-- What holds between the published entries, the file system and the stage the
data mover has reached with the front of its list. -/
structure Sound (source : Path → Option Bytes) (srv : Server) : Prop where
  source_kept : ∀ p b, source p = some b → srv.files p = some b ∧ Settled srv p
  entry : ∀ p q, srv.pathCacheMap p = some q →
    (p, q) ∈ srv.mover.copies ∧ SameContents srv p q ∧ Settled srv p ∧ Settled srv q
  distinct : ∀ p p' q, srv.pathCacheMap p = some q → srv.pathCacheMap p' = some q → p = p'
  copying : ∀ f p rest, srv.mover.phase = .copying f → srv.mover.localList = p :: rest →
    p ≠ f ∧ ∀ p' q', srv.pathCacheMap p' = some q' → q' ≠ f
  copied : ∀ f p rest, srv.mover.phase = .copied f → srv.mover.localList = p :: rest →
    (p, f) ∈ srv.mover.copies ∧ SameContents srv p f ∧
      ∀ p' q', srv.pathCacheMap p' = some q' → q' ≠ f

theorem start_sound (files : Path → Option Bytes) (own : Posix.Table Path) :
    Sound files (start files own) := by
  constructor <;> simp [start, Settled]

theorem Sound.of_view {source : Path → Option Bytes} {srv s : Server} (h : Sound source srv)
    (hv : s.cacheView = srv.cacheView) : Sound source s := by
  obtain ⟨hf, hc, hm⟩ := cacheView_eq hv
  constructor
  · simpa [Settled, hf, hm] using h.source_kept
  · simpa [Settled, SameContents, hf, hm, hc] using h.entry
  · simpa [hc] using h.distinct
  · simpa [hc, hm] using h.copying
  · simpa [SameContents, hf, hc, hm] using h.copied

/-- The mover writes only to the file it is copying to, and only to a new name. -/
theorem files_kept {srv s : Server} (h : Moves srv s) {p : Path} {b : Bytes}
    (hb : srv.files p = some b) (hs : Settled srv p) : s.files p = some b ∧ Settled s p := by
  cases h with
  | take hp hl => exact ⟨hb, by simp [Settled, hp]⟩
  | mkdtemp newdir q rest hp hl => exact ⟨hb, by simp [Settled]⟩
  | copyBegin q f rest c n hp hl hc hf =>
    have hne : p ≠ f := by
      intro he
      subst he
      simp [hb] at hf
    exact ⟨by simp [hne, hb], by simp [Settled, hne.symm]⟩
  | copyEnd q f rest c hp hl hc =>
    have hne : p ≠ f := by
      intro he
      subst he
      exact hs hp
    exact ⟨by simp [hne, hb], by simp [Settled]⟩
  | copyFail => exact ⟨hb, by simp [Settled, Server.copyFail]⟩
  | publish q f rest hp hl => exact ⟨hb, by simp [Settled, Server.publish]⟩

theorem same_kept {srv s : Server} (h : Moves srv s) {p q : Path} (hc : SameContents srv p q)
    (hp : Settled srv p) (hq : Settled srv q) :
    SameContents s p q ∧ Settled s p ∧ Settled s q := by
  obtain ⟨b, hbp, hbq⟩ := hc
  have h₁ := files_kept h hbp hp
  have h₂ := files_kept h hbq hq
  exact ⟨⟨b, h₁.1, h₂.1⟩, h₁.2, h₂.2⟩

theorem entry_kept {source : Path → Option Bytes} {srv s : Server} (h : Sound source srv)
    (hm : Moves srv s) (hc : s.pathCacheMap = srv.pathCacheMap)
    (hcopies : ∀ x ∈ srv.mover.copies, x ∈ s.mover.copies) :
    ∀ p q, s.pathCacheMap p = some q →
      (p, q) ∈ s.mover.copies ∧ SameContents s p q ∧ Settled s p ∧ Settled s q := by
  intro p q hpq
  rw [hc] at hpq
  obtain ⟨hmem, hsame, hp, hq⟩ := h.entry p q hpq
  exact ⟨hcopies _ hmem, same_kept hm hsame hp hq⟩

theorem moves_sound {source : Path → Option Bytes} {srv s : Server} (h : Sound source srv)
    (hm : Moves srv s) : Sound source s := by
  have hsource : ∀ p b, source p = some b → s.files p = some b ∧ Settled s p := fun p b hb ↦
    files_kept hm (h.source_kept p b hb).1 (h.source_kept p b hb).2
  cases hm with
  | take hp hl =>
    have hm := Moves.take hp hl
    exact ⟨hsource, entry_kept h hm rfl (by simp), h.distinct, by simp [hp], by simp [hp]⟩
  | mkdtemp newdir q rest hp hl =>
    have hm := Moves.mkdtemp newdir q rest hp hl
    exact ⟨hsource, entry_kept h hm rfl (by simp), h.distinct, by simp, by simp⟩
  | copyBegin q f rest b n hp hl hb hf =>
    have hm := Moves.copyBegin q f rest b n hp hl hb hf
    refine ⟨hsource, entry_kept h hm rfl (by simp), h.distinct, ?_, by simp⟩
    rintro f' q' rest' ⟨⟩ hl'
    obtain ⟨rfl, rfl⟩ : q = q' ∧ rest = rest' := by simpa [hl] using hl'
    refine ⟨?_, fun p' t ht ↦ ?_⟩
    · intro he
      subst he
      simp [hf] at hb
    · obtain ⟨c, -, hc⟩ := (h.entry p' t ht).2.1
      intro he
      subst he
      simp [hf] at hc
  | copyEnd q f rest b hp hl hb =>
    have hm := Moves.copyEnd q f rest b hp hl hb
    obtain ⟨hne, hfree⟩ := h.copying f q rest hp hl
    refine ⟨hsource, entry_kept h hm rfl (fun x hx ↦ by simp [hx]), h.distinct, by simp, ?_⟩
    rintro f' q' rest' ⟨⟩ hl'
    obtain ⟨rfl, rfl⟩ : q = q' ∧ rest = rest' := by simpa [hl] using hl'
    exact ⟨by simp, ⟨b, by simp [hne, hb], by simp⟩, hfree⟩
  | copyFail f hp =>
    have hm := Moves.copyFail f hp
    exact ⟨hsource, entry_kept h hm rfl (by simp [Server.copyFail]), h.distinct,
      by simp [Server.copyFail], by simp [Server.copyFail]⟩
  | publish q f rest hp hl =>
    obtain ⟨hmem, hsame, hfree⟩ := h.copied f q rest hp hl
    refine ⟨hsource, ?_, ?_, by simp [Server.publish], by simp [Server.publish]⟩
    · intro p t ht
      by_cases hpq : p = q
      · subst p
        obtain rfl : f = t := by simpa [Server.publish] using ht
        exact ⟨hmem, hsame, by simp [Settled, Server.publish], by simp [Settled, Server.publish]⟩
      · have hold : srv.pathCacheMap p = some t := by simpa [Server.publish, hpq] using ht
        obtain ⟨hmem', hsame', -, -⟩ := h.entry p t hold
        exact ⟨hmem', hsame', by simp [Settled, Server.publish],
          by simp [Settled, Server.publish]⟩
    · intro p p' t ht ht'
      simp only [Server.publish, PMap.insert_apply] at ht ht'
      -- the new name differs from every published one
      split at ht <;> split at ht'
      · simp_all
      · simp only [Option.some.injEq] at ht
        exact absurd ht.symm (hfree _ _ ht')
      · simp only [Option.some.injEq] at ht'
        exact absurd ht'.symm (hfree _ _ ht)
      · exact h.distinct p p' t ht ht'

theorem step_sound {source : Path → Option Bytes} {srv s : Server} {l : ServerLabel}
    (h : Sound source srv) (hs : srv.step l = some s) : Sound source s := by
  obtain ⟨r, env, rfl, rfl⟩ | ⟨m, rfl, hm⟩ := step_cases hs
  · exact h.of_view (handle_view srv r env)
  · exact moves_sound h hm

theorem reach_sound {files : Path → Option Bytes} {own : Posix.Table Path} {srv : Server}
    (h : Reach Server.step (fun _ _ ↦ True) (start files own) srv) : Sound files srv :=
  h.invariant (Sound files) (start_sound files own) fun _ _ _ hb _ hs ↦ step_sound hb hs

/-- An open request that yields a descriptor yields one of a file with the
contents of the requested path. -/
theorem open_served {source : Path → Option Bytes} {srv s : Server} (h : Sound source srv)
    {inp : OpenIn} {env : Env} {out : ℤ} (ho : srv.ftcOpenRpcHandler inp env = .responded s out)
    (hout : out ≠ -1) :
    ∃ q b, s.fds out = some ⟨q, 0⟩ ∧ s.files q = some b ∧ srv.files inp.path = some b := by
  simp only [ftcOpenRpcHandler, sysOpen, Handled.responded.injEq] at ho
  obtain ⟨rfl, rfl⟩ := ho
  cases hop : env.opened with
  | none => simp [hop] at hout
  | some fd =>
    simp only [hop] at hout ⊢
    split at hout
    case isFalse => simp at hout
    case isTrue hg =>
      obtain ⟨b, hb⟩ := Option.isSome_iff_exists.mp hg.1
      refine ⟨srv.redirPath inp.path, b, by simp [hg], hb, ?_⟩
      cases hc : srv.pathCacheMap inp.path with
      | none => simpa [redirPath, hc] using hb
      | some q =>
        obtain ⟨c, hp, hq⟩ := (h.entry _ _ hc).2.1
        have hqb : srv.files q = some b := by simpa [redirPath, hc] using hb
        rw [hp, ← hq, hqb]

theorem redir_source {source : Path → Option Bytes} {srv : Server} (h : Sound source srv)
    {p : Path} {b : Bytes} (hp : source p = some b) :
    srv.files (srv.redirPath p) = some b ∧ Settled srv (srv.redirPath p) := by
  have hsrc := h.source_kept p b hp
  cases hc : srv.pathCacheMap p with
  | none => simpa [redirPath, hc] using hsrc
  | some q =>
    obtain ⟨-, ⟨c, hcp, hcq⟩, -, hq⟩ := h.entry p q hc
    have hcb : c = b := Option.some.inj (hcp.symm.trans hsrc.1)
    simpa [redirPath, hc] using ⟨hcb ▸ hcq, hq⟩

theorem copyFail_publishes_nothing {srv s : Server} (h : srv.step (.mover .copyFail) = some s) :
    s.pathCacheMap = srv.pathCacheMap ∧ s.mover.copies = srv.mover.copies := by
  have hs : srv.moverStep .copyFail = some s := by
    unfold Server.step at h
    split at h
    · cases h
    · exact h
  unfold moverStep at hs
  split at hs
  case h_5 =>
    cases hs
    exact ⟨rfl, rfl⟩
  case h_6 =>
    cases hs
    exact ⟨rfl, rfl⟩
  all_goals contradiction

/-- Whatever requests arrive and however copies end: every published entry
names a complete copy, distinct files have distinct copies, the sources stay as
they were, an open request is served from a file with the contents of its path,
and a failed copy publishes nothing. -/
theorem nvme_cache_never_lies (files : Path → Option Bytes) (own : Posix.Table Path)
    (srv : Server) (h : Reach Server.step (fun _ _ ↦ True) (start files own) srv) :
    (∀ p q, srv.pathCacheMap p = some q → (p, q) ∈ srv.mover.copies ∧ SameContents srv p q) ∧
    (∀ p p' q, srv.pathCacheMap p = some q → srv.pathCacheMap p' = some q → p = p') ∧
    (∀ p b, files p = some b → srv.files p = some b) ∧
    (∀ inp env s out, srv.handle (.openRpc inp) env = .responded s out → out ≠ -1 →
      ∃ q b, s.fds out = some ⟨q, 0⟩ ∧ s.files q = some b ∧ srv.files inp.path = some b) ∧
    (∀ s, srv.step (.mover .copyFail) = some s →
      s.pathCacheMap = srv.pathCacheMap ∧ s.mover.copies = srv.mover.copies) := by
  have hsound := reach_sound h
  refine ⟨fun p q hpq ↦ ?_, hsound.distinct, fun p b hb ↦ (hsound.source_kept p b hb).1,
    fun inp env s out ho hout ↦ open_served hsound ho hout, fun s hs ↦ ?_⟩
  · exact ⟨(hsound.entry p q hpq).1, (hsound.entry p q hpq).2.1⟩
  · exact copyFail_publishes_nothing hs

/-- A file is opened, closed, copied and published; what its entry names is its copy. -/
theorem nvme_cache_never_lies_published :
    ∃ srv q, srv.pathCacheMap samplePath = some q ∧ SameContents srv samplePath q := by
  obtain ⟨srv, hreach, hq⟩ : ∃ srv, Reach Server.step (fun _ _ ↦ True)
      (start sampleConfig.files fun _ ↦ none) srv ∧
      srv.pathCacheMap samplePath = some ['/', 'n', '/', 'f'] :=
    Reach.exists_of_exec [.request (.openRpc ⟨samplePath, 3⟩) { opened := some 7 },
      .request (.closeRpc ⟨7⟩) {}, .mover .take, .mover (.mkdtemp ['/', 'n']),
      .mover (.copyBegin 1), .mover .copyEnd, .mover .publish]
      (by decide +kernel) (by decide +kernel)
  exact ⟨srv, _, hq, ((nvme_cache_never_lies _ _ srv hreach).1 _ _ hq).2⟩

end FTCache.NvmeCache
