import FTCache.Library.Paths
import FTCache.World

namespace FTCache.DataDirectory

open Client Paths

abbrev Names := List (Name '/')

theorem parentPath_root : parentPath (text ([] : Names)) = text ([] : Names) := by
  decide

theorem parentPath_concat (ns : Names) (n : Name '/') :
    parentPath (text (ns ++ [n])) = text ns := by
  have hcut : ((body (ns ++ [n])).reverse.dropWhile (· ≠ '/')).reverse = body ns ++ ['/'] := by
    have hplain : ∀ c ∈ n.chars.reverse, (decide (c ≠ '/')) = true := by
      intro c hc
      refine decide_eq_true fun he ↦ ?_
      subst he
      exact n.plain (List.mem_reverse.mp hc)
    simp only [body_append, body, List.append_nil, List.reverse_append, List.cons_append,
      List.reverse_cons, List.append_assoc]
    rw [List.dropWhile_append_of_pos hplain]
    simp
  rw [text_of_ne_nil (by simp)]
  unfold parentPath
  rw [hcut]
  cases ns with
  | nil => rfl
  | cons m ms =>
    have hne : body (m :: ms) ++ ['/'] ≠ ['/'] := by simp [body]
    simp only [hne, ↓reduceIte, List.dropLast_concat]
    rfl

theorem parentPath_text (ns : Names) : parentPath (text ns) = text ns.dropLast := by
  rcases List.eq_nil_or_concat ns with rfl | ⟨ms, n, rfl⟩
  · exact parentPath_root
  · rw [List.concat_eq_append, parentPath_concat, List.dropLast_concat]

/-- Where the text of the data directory occurs in a parent's at all, it is the root, the
parent itself, or what the parent starts with before a separator. -/
def OccursWhole (dir parent : Names) : Prop :=
  text dir <:+: text parent →
    dir = [] ∨ text dir = text parent ∨ text dir ++ ['/'] <+: text parent

section

variable {cfg : Config} {path dir : Path} {flags : BitVec 32} {ds ps : Names}

theorem trackedPath_isSome_iff (hdir : cfg.dataDir = some dir)
    (hd : cfg.canonical dir = some (text ds)) (hp : cfg.canonical path = some (text ps))
    (hports : ¬portsMark <:+: path) (hread : flags &&& oAccmode ≠ oWronly)
    (happend : flags &&& oAppend = 0) :
    (trackedPath cfg path flags).isSome ↔ text ds <:+: text ps.dropLast := by
  unfold trackedPath
  simp only [hports, hread, happend, hp, hdir, hd, parentPath_text, ↓reduceIte, not_true_eq_false,
    ne_eq]
  split <;> simp [*]

/-- `ftc_track_file` returns whether it has found the path in the data directory, for a
host below the limit. -/
theorem tracked_iff {cl cl' : Client} {forwards tracked : Bool} {fd : Fd} {cell : Addr}
    {sent : Option Sent} (hbelow : ∀ p ∈ trackedPath cfg path flags, ¬cl.overLimit (cfg.host p))
    (h : cl.ftcTrackFile cfg forwards path flags fd cell = .ok (cl', tracked, sent)) :
    tracked = true ↔ (trackedPath cfg path flags).isSome := by
  unfold ftcTrackFile at h
  cases ht : trackedPath cfg path flags with
  | none =>
    simp only [ht] at h
    cases h
    simp
  | some p =>
    have hb : ¬overLimit { cl with fdMap := cl.fdMap.insert fd p } (cfg.host p) := hbelow p ht
    simp only [ht, if_neg hb] at h
    cases hg : ftcClientCommGenOpenRpc cfg forwards { cl with fdMap := cl.fdMap.insert fd p }
        (cfg.host p) p fd cell with
    | error e =>
      rw [hg] at h
      cases h
    | ok r =>
      rw [hg] at h
      cases h
      simp

end

/-- A file is tracked if and only if it lies in the data directory, exactly when the
directory's text occurs in its parent's only as a whole. -/
theorem tracking_is_containment (cfg : Config) (cl cl' : Client) (forwards tracked : Bool)
    (path dir : Path) (flags : BitVec 32) (fd : Fd) (cell : Addr) (sent : Option Sent)
    (ds ps : Names) (hdir : cfg.dataDir = some dir) (hd : cfg.canonical dir = some (text ds))
    (hp : cfg.canonical path = some (text ps)) (hports : ¬portsMark <:+: path)
    (hread : flags &&& oAccmode ≠ oWronly) (happend : flags &&& oAppend = 0)
    (hbelow : ¬cl.overLimit (cfg.host (text ps)))
    (h : cl.ftcTrackFile cfg forwards path flags fd cell = .ok (cl', tracked, sent)) :
    (tracked = true ↔ ds <+: ps.dropLast) ↔ OccursWhole ds ps.dropLast := by
  have hhost : ∀ p ∈ trackedPath cfg path flags, ¬cl.overLimit (cfg.host p) := by
    intro p ht
    rwa [trackedPath_canonical ht hp]
  have htracked := (tracked_iff hhost h).trans
    (trackedPath_isSome_iff hdir hd hp hports hread happend)
  rw [htracked, OccursWhole, ← prefix_iff_text]
  constructor
  · intro hiff
    exact hiff.mp
  · intro hwhole
    exact ⟨hwhole, infix_of_prefix⟩

def directoryConfig : Config :=
  { sampleConfig with dataDir := some ['/', 'd'], canonical := some }

def nameD : Name '/' := ⟨['d'], by simp, by simp⟩

def nameDx : Name '/' := ⟨['d', 'x'], by simp, by simp⟩

def nameF : Name '/' := ⟨['f'], by simp, by simp⟩

theorem tracking_is_containment_inside :
    ∃ cl sent, sampleClient.ftcTrackFile directoryConfig true ['/', 'd', '/', 'f'] 0 3 8 =
        .ok (cl, true, sent) ∧
      (true = true ↔ [nameD] <+: [nameD, nameF].dropLast) := by
  have hrun : (sampleClient.ftcTrackFile directoryConfig true ['/', 'd', '/', 'f'] 0 3
      8).toOption.map (·.2.1) = some true := by decide +kernel
  obtain ⟨⟨cl, tracked, sent⟩, hok, rfl⟩ := Option.map_eq_some_iff.mp hrun
  have hok' := toOption_eq_some hok
  refine ⟨cl, sent, hok', ?_⟩
  exact (tracking_is_containment directoryConfig sampleClient cl true true ['/', 'd', '/', 'f']
    ['/', 'd'] 0 3 8 sent [nameD] [nameD, nameF] rfl rfl rfl (by decide) (by decide) (by decide)
    (by decide +kernel) hok').mpr fun _ ↦ .inr (.inl rfl)

/-- A file of the sibling directory `/dx` is tracked. -/
theorem tracking_leaves_directory :
    ¬∀ (cfg : Config) (cl cl' : Client) (tracked : Bool) (path dir : Path) (fd : Fd) (cell : Addr)
      (sent : Option Sent) (ds ps : Names), cfg.dataDir = some dir →
      cfg.canonical dir = some (text ds) → cfg.canonical path = some (text ps) →
      ¬portsMark <:+: path → ¬cl.overLimit (cfg.host (text ps)) →
      cl.ftcTrackFile cfg true path oRdonly fd cell = .ok (cl', tracked, sent) →
      (tracked = true ↔ ds <+: ps.dropLast) := by
  intro h
  have hrun : (sampleClient.ftcTrackFile directoryConfig true ['/', 'd', 'x', '/', 'f'] oRdonly 3
      8).toOption.map (·.2.1) = some true := by decide +kernel
  obtain ⟨⟨cl, tracked, sent⟩, hok, rfl⟩ := Option.map_eq_some_iff.mp hrun
  have hin := (h directoryConfig sampleClient cl true ['/', 'd', 'x', '/', 'f'] ['/', 'd'] 3 8 sent
    [nameD] [nameDx, nameF] rfl rfl rfl (by decide) (by decide +kernel)
    (toOption_eq_some hok)).mp rfl
  have hname := congrArg Name.chars ((List.cons_prefix_cons.mp hin).1)
  simp [nameD, nameDx] at hname

end FTCache.DataDirectory
