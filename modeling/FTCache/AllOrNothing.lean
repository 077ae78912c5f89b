import FTCache.RemoteCalls
import FTCache.World

namespace FTCache.AllOrNothing

open Client

def answered : Ending → Option Fd
  | .completed (.output out) => some out
  | _ => none

/-- A tracked file is in both maps, with its canonical path and the descriptor the server
has returned; a file that is not tracked leaves both as they were. -/
def Whole (cfg : Config) (rpc : Rpc) (path : Path) (fd : Fd) (cl cl' : Client) (tracked : Bool) :
    Prop :=
  (tracked = true → (∃ p, cfg.canonical path = some p ∧ cl'.fdMap fd = some p) ∧
    ∃ out, answered rpc.ending = some out ∧ cl'.fdRedirMap fd = some out) ∧
  (tracked = false → cl'.fdMap = cl.fdMap ∧ cl'.fdRedirMap = cl.fdRedirMap)

/-- A path that is to be tracked has its open answered, or is there for this descriptor
already while its host is over the limit. -/
def Settled (cfg : Config) (rpc : Rpc) (cl : Client) (path : Path) (flags : BitVec 32) (fd : Fd) :
    Prop :=
  ∀ p ∈ trackedPath cfg path flags,
    if cl.overLimit (cfg.host p) then cl.fdMap fd = some p else (answered rpc.ending).isSome

instance (cfg : Config) (rpc : Rpc) (cl : Client) (path : Path) (flags : BitVec 32) (fd : Fd) :
    Decidable (Settled cfg rpc cl path flags fd) :=
  inferInstanceAs (Decidable (∀ p ∈ trackedPath cfg path flags, _))

variable {cfg : Config} {rpc : Rpc} {cl cl' : Client} {path p : Path} {flags : BitVec 32}
variable {fd : Fd} {cell : Addr} {tracked : Bool}

theorem trackedPath_of_canonical (h : trackedPath cfg path flags = some p) :
    cfg.canonical path = some p := by
  cases hp : cfg.canonical path with
  | none =>
    unfold trackedPath at h
    grind
  | some p' => rw [trackedPath_canonical h hp]

/-- Over the limit the entry is written before the limit is looked at. -/
theorem trackFile_over (hp : trackedPath cfg path flags = some p)
    (ho : cl.overLimit (cfg.host p)) :
    cl.trackFile cfg rpc path flags fd cell =
      .ok ({ cl with fdMap := cl.fdMap.insert fd p }, false) := by
  have hover : overLimit { cl with fdMap := cl.fdMap.insert fd p } (cfg.host p) := ho
  simp only [trackFile, ftcTrackFile, hp, if_pos hover]

/-- Below the limit the call returns true, whatever comes of the request. -/
theorem trackFile_sent (hp : trackedPath cfg path flags = some p)
    (ho : ¬cl.overLimit (cfg.host p))
    (h : cl.trackFile cfg rpc path flags fd cell = .ok (cl', tracked)) :
    tracked = true ∧ cl'.fdMap fd = some p ∧
      ∀ out, answered rpc.ending = some out → cl'.fdRedirMap fd = some out := by
  have hbelow : ¬overLimit { cl with fdMap := cl.fdMap.insert fd p } (cfg.host p) := ho
  simp only [trackFile, ftcTrackFile, hp, if_neg hbelow] at h
  cases hg : ftcClientCommGenOpenRpc cfg rpc.forwards { cl with fdMap := cl.fdMap.insert fd p }
      (cfg.host p) p fd cell with
  | error e =>
    rw [hg] at h
    cases h
  | ok r =>
    obtain rfl := forward_ok hg
    rw [hg] at h
    simp only [Except.map] at h
    cases he : rpc.ending with
    | timedOut =>
      rw [he] at h
      cases h
      exact ⟨rfl, by simp [timeOut], by simp [answered]⟩
    | completed r =>
      rw [he] at h
      cases r with
      | failed => cases h
      | undecodable g =>
        cases h
        exact ⟨rfl, by simp [setDone], by simp [answered]⟩
      | output out =>
        cases h
        refine ⟨rfl, by simp [setDone], fun out' hout ↦ ?_⟩
        obtain rfl : out = out' := by simpa [answered] using hout
        simp [setDone]

/-- Tracking a file is all or nothing exactly when it is settled. -/
theorem track_all_or_nothing (cfg : Config) (rpc : Rpc) (cl cl' : Client) (path : Path)
    (flags : BitVec 32) (fd : Fd) (cell : Addr) (tracked : Bool)
    (h : cl.trackFile cfg rpc path flags fd cell = .ok (cl', tracked)) :
    Whole cfg rpc path fd cl cl' tracked ↔ Settled cfg rpc cl path flags fd := by
  cases hp : trackedPath cfg path flags with
  | none =>
    simp only [trackFile, ftcTrackFile, hp] at h
    cases h
    exact iff_of_true ⟨by simp, fun _ ↦ ⟨rfl, rfl⟩⟩ (by simp [Settled, hp])
  | some p =>
    simp only [Settled, hp, Option.mem_some_iff, forall_eq']
    by_cases ho : cl.overLimit (cfg.host p)
    · rw [trackFile_over hp ho] at h
      cases h
      rw [if_pos ho]
      constructor
      · intro hwhole
        have hsame := congrFun (hwhole.2 rfl).1 fd
        simpa using hsame.symm
      · intro hentry
        refine ⟨by simp, fun _ ↦ ⟨?_, rfl⟩⟩
        funext j
        by_cases hj : j = fd
        · simp [hj, hentry]
        · simp [hj]
    · obtain ⟨rfl, hmap, hredir⟩ := trackFile_sent hp ho h
      rw [if_neg ho]
      constructor
      · intro hwhole
        obtain ⟨-, out, hout, -⟩ := hwhole.1 rfl
        simp [hout]
      · intro hanswer
        obtain ⟨out, hout⟩ := Option.isSome_iff_exists.mp hanswer
        exact ⟨fun _ ↦ ⟨⟨p, trackedPath_of_canonical hp, hmap⟩, out, hout, hredir out hout⟩,
          by simp⟩

def answeredRpc : Rpc := ⟨true, .completed (.output 7)⟩

theorem track_all_or_nothing_answered :
    ∃ cl, sampleClient.trackFile sampleConfig answeredRpc samplePath oRdonly 3 8 = .ok (cl, true) ∧
      Whole sampleConfig answeredRpc samplePath 3 sampleClient cl true := by
  have hrun : (sampleClient.trackFile sampleConfig answeredRpc samplePath oRdonly 3 8).toOption.map
      Prod.snd = some true := by decide +kernel
  obtain ⟨⟨cl, tracked⟩, hok, rfl⟩ := Option.map_eq_some_iff.mp hrun
  have hok' := toOption_eq_some hok
  refine ⟨cl, hok', ?_⟩
  exact (track_all_or_nothing sampleConfig answeredRpc sampleClient cl samplePath oRdonly 3 8 true
    hok').mpr (by decide +kernel)

/-- A host over the limit leaves an entry in `fd_map` behind the answer false; a timeout
answers true without an entry in `fd_redir_map`. -/
theorem track_not_all_or_nothing :
    (¬∀ (cl cl' : Client) (tracked : Bool),
      cl.trackFile sampleConfig answeredRpc samplePath oRdonly 3 8 = .ok (cl', tracked) →
      Whole sampleConfig answeredRpc samplePath 3 cl cl' tracked) ∧
    ¬∀ (rpc : Rpc) (cl' : Client) (tracked : Bool),
      sampleClient.trackFile sampleConfig rpc samplePath oRdonly 3 8 = .ok (cl', tracked) →
      Whole sampleConfig rpc samplePath 3 sampleClient cl' tracked := by
  have hp : trackedPath sampleConfig samplePath oRdonly = some samplePath := by decide +kernel
  constructor
  · intro h
    have hover : overLimit { sampleClient with timeoutCounters := fun _ ↦ 3 }
        (sampleConfig.host samplePath) := by decide +kernel
    let limited : Client := { sampleClient with timeoutCounters := fun _ ↦ 3 }
    have hrun : limited.trackFile sampleConfig answeredRpc samplePath oRdonly 3 8 =
        .ok (_, false) := trackFile_over hp hover
    have hwhole := h _ _ false hrun
    have hsame := congrFun (hwhole.2 rfl).1 3
    revert hsame
    decide +kernel
  · intro h
    have hrun : (sampleClient.trackFile sampleConfig ⟨true, .timedOut⟩ samplePath oRdonly 3
        8).toOption.map Prod.snd = some true := by decide +kernel
    obtain ⟨⟨cl, tracked⟩, hok, rfl⟩ := Option.map_eq_some_iff.mp hrun
    obtain ⟨-, out, hout, -⟩ := (h _ cl true (toOption_eq_some hok)).1 rfl
    cases hout

end FTCache.AllOrNothing
