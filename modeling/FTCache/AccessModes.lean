import FTCache.Tracking

namespace FTCache.AccessModes

open Runs Client Tracking

def oRdwr : BitVec 32 := 2
def oCreat : BitVec 32 := 0o100
def oExcl : BitVec 32 := 0o200
def oTrunc : BitVec 32 := 0o1000
def oCloexec : BitVec 32 := 0o2000000

/-- The flags libc's `fopen` opens a file with: the letter in front, then what it knows
among the six characters that follow. -/
def modeFlags : List Char → Option (BitVec 32)
  | [] => none
  | c :: rest =>
    let extra := (if 'x' ∈ rest.take 6 then oExcl else 0) |||
      if 'e' ∈ rest.take 6 then oCloexec else 0
    let access := fun single ↦ if '+' ∈ rest.take 6 then oRdwr else single
    match c with
    | 'r' => some (access oRdonly ||| extra)
    | 'w' => some (access oWronly ||| (oCreat ||| oTrunc) ||| extra)
    | 'a' => some (access oWronly ||| (oCreat ||| oAppend) ||| extra)
    | _ => none

/-- The kernel lets a descriptor opened with these flags write. -/
def Writable (flags : BitVec 32) : Prop :=
  flags &&& oPath = 0 ∧ (flags &&& oAccmode = oWronly ∨ flags &&& oAccmode = oRdwr)

instance (flags : BitVec 32) : Decidable (Writable flags) :=
  inferInstanceAs (Decidable (_ ∧ _))

/-- A process, with the flags its descriptors were opened with. -/
structure Process where
  client : Client
  opened : PMap Fd (BitVec 32)

/-- The wrapped calls that make and release descriptors, answered with `fd`, and what
arrives for the library meanwhile. -/
inductive Op
  | openFile (path : Path) (flags : BitVec 32) (fd : Fd) (cell : Addr)
  | fopen (path : Path) (mode : List Char) (fd : Fd) (cell : Addr)
  | close (fd : Fd)
  | openCb (fd : Fd) (cell : Addr) (r : Completion)
  | timeOut (host : Host)
  deriving DecidableEq

namespace Process

variable (cfg : Config) (s : Process)

/-- A wrapper that has its descriptor hands it to `ftc_track_file`. -/
def track (path : Path) (flags : BitVec 32) (fd : Fd) (cell : Addr) : Option Process :=
  ((s.client.ftcTrackFile cfg true path flags fd cell).toOption).map
    fun r ↦ { s with client := r.1 }

/-- The wrappers of `open` and `open64`. -/
def openFile (path : Path) (flags : BitVec 32) (fd : Fd) (cell : Addr) : Option Process :=
  if 0 ≤ fd ∧ s.opened fd = none then
    { s with opened := s.opened.insert fd flags }.track cfg path flags fd cell
  else none

/-- The wrappers of `fopen` and `fopen64`, which track as if for reading. -/
def fopen (path : Path) (mode : List Char) (fd : Fd) (cell : Addr) : Option Process :=
  (modeFlags mode).bind fun flags ↦
    if 0 ≤ fd ∧ s.opened fd = none then
      { s with opened := s.opened.insert fd flags }.track cfg path oRdonly fd cell
    else none

def close (fd : Fd) : Option Process :=
  ((s.client.ftcRemoveFd cfg true fd).toOption).map
    fun r ↦ { client := r.1, opened := s.opened.erase fd }

def step (s : Process) : Op → Option Process
  | .openFile path flags fd cell => s.openFile cfg path flags fd cell
  | .fopen path mode fd cell => s.fopen cfg path mode fd cell
  | .close fd => s.close cfg fd
  | .openCb fd cell r => ((s.client.ftcOpenCb fd cell r).toOption).map
      fun cl ↦ { s with client := cl }
  | .timeOut host => some { s with client := s.client.timeOut host }

/-- The wrapper of `write` returns what the kernel answers; its check for a tracked
descriptor comes after that. -/
def CanWrite (fd : Fd) : Prop := ∃ flags, s.opened fd = some flags ∧ Writable flags

end Process

/-- Nothing is tracked yet; descriptors may be inherited. -/
def start (cl : Client) (inherited : PMap Fd (BitVec 32)) : Process :=
  ⟨{ cl with fdMap := fun _ ↦ none }, inherited⟩

/-- What is tracked is open, and cannot be written. -/
def ReadOnly (s : Process) : Prop :=
  ∀ fd p, s.client.fdMap fd = some p → (s.opened fd).isSome ∧ ¬s.CanWrite fd

/-- An `fopen` tracks as an `open` with the flags of its mode would. -/
def TracksAlike (cfg : Config) : Op → Prop
  | .fopen path mode _ _ =>
    ∀ flags ∈ modeFlags mode, trackedPath cfg path oRdonly = trackedPath cfg path flags
  | _ => True

/-- A file that the wrapper is about to track has been opened without write access. -/
def Harmless (cfg : Config) : Op → Prop
  | .openFile path flags _ _ => (trackedPath cfg path flags).isSome → ¬Writable flags
  | .fopen path mode _ _ =>
    (trackedPath cfg path oRdonly).isSome → ∀ flags ∈ modeFlags mode, ¬Writable flags
  | _ => True

instance (cfg : Config) : (op : Op) → Decidable (Harmless cfg op)
  | .openFile path flags _ _ =>
    inferInstanceAs (Decidable ((trackedPath cfg path flags).isSome → ¬Writable flags))
  | .fopen path mode _ _ => inferInstanceAs (Decidable
      ((trackedPath cfg path oRdonly).isSome → ∀ flags ∈ modeFlags mode, ¬Writable flags))
  | .close _ => isTrue trivial
  | .openCb _ _ _ => isTrue trivial
  | .timeOut _ => isTrue trivial

variable {cfg : Config} {s s' : Process} {path : Path} {flags : BitVec 32}

theorem trackedPath_flags (cfg : Config) (path : Path) (flags : BitVec 32) :
    trackedPath cfg path flags =
      if flags &&& oAccmode = oWronly ∨ flags &&& oAppend ≠ 0 then none
      else trackedPath cfg path oRdonly := by
  have hr : ¬oRdonly &&& oAccmode = oWronly := by decide
  have ha : oRdonly &&& oAppend = 0 := by decide
  unfold trackedPath
  by_cases hw : flags &&& oAccmode = oWronly
  · simp [hw]
  · by_cases happ : flags &&& oAppend = 0
    · simp [hw, happ, hr, ha]
    · rw [if_pos (Or.inr happ)]
      simp only [if_neg hw, if_pos (show flags &&& oAppend ≠ 0 from happ), ite_self]

theorem modeFlags_reading {mode : List Char} (h : modeFlags mode = some flags)
    (hw : ¬Writable flags) : flags &&& oAccmode ≠ oWronly ∧ flags &&& oAppend = 0 := by
  cases mode with
  | nil => cases h
  | cons c rest =>
    simp only [modeFlags] at h
    by_cases hplus : '+' ∈ rest.take 6 <;> by_cases hx : 'x' ∈ rest.take 6 <;>
      by_cases he : 'e' ∈ rest.take 6 <;> simp only [hplus, hx, he, ↓reduceIte] at h <;>
      split at h <;> cases h <;> first | decide | exact absurd (by decide) hw

theorem tracksAlike_of_harmless {mode : List Char} {fd : Fd} {cell : Addr}
    (h : Harmless cfg (.fopen path mode fd cell)) : TracksAlike cfg (.fopen path mode fd cell) := by
  intro flags hflags
  rw [trackedPath_flags cfg path flags]
  cases ht : trackedPath cfg path oRdonly with
  | none => simp
  | some p =>
    have hw := h (by simp [ht]) flags hflags
    obtain ⟨hread, happend⟩ := modeFlags_reading hflags hw
    simp [hread, happend]

theorem untracked_of_free (h : ReadOnly s) {fd : Fd} (hfree : s.opened fd = none) :
    s.client.fdMap fd = none := by
  by_contra hne
  obtain ⟨p, hp⟩ := Option.ne_none_iff_exists'.mp hne
  simpa [hfree] using (h fd p hp).1

theorem opened_readOnly {fd : Fd} {opened : BitVec 32} (h : ReadOnly s)
    (hfree : s.opened fd = none)
    (hm : s'.client.fdMap = recorded cfg s.client.fdMap path flags fd)
    (ho : s'.opened = s.opened.insert fd opened) :
    ReadOnly s' ↔ ((trackedPath cfg path flags).isSome → ¬Writable opened) := by
  have hunused := untracked_of_free h hfree
  have hother {j : Fd} (hj : j ≠ fd) {p : Path} (hp : s.client.fdMap j = some p) :
      (s'.opened j).isSome ∧ ¬s'.CanWrite j := by
    obtain ⟨hopen, hno⟩ := h j p hp
    unfold Process.CanWrite at hno ⊢
    simpa [ho, hj] using And.intro hopen hno
  unfold recorded at hm
  cases ht : trackedPath cfg path flags with
  | none =>
    simp only [ht] at hm
    refine iff_of_true (fun j p hp ↦ ?_) (by simp)
    rw [hm] at hp
    refine hother (fun he ↦ ?_) hp
    simp [he, hunused] at hp
  | some q =>
    simp only [ht] at hm
    constructor
    · intro hread _ hw
      have hfd : s'.client.fdMap fd = some q := by simp [hm]
      exact (hread fd q hfd).2 ⟨opened, by simp [ho], hw⟩
    · intro hno j p hp
      by_cases hj : j = fd
      · subst j
        refine ⟨by simp [ho], fun hcan ↦ ?_⟩
        obtain ⟨flags', hflags', hw⟩ := hcan
        obtain rfl : opened = flags' := by simpa [ho] using hflags'
        exact hno rfl hw
      · exact hother hj (by simpa [hm, hj] using hp)

theorem track_effect {fd : Fd} {cell : Addr} (h : s.track cfg path flags fd cell = some s') :
    s'.client.fdMap = recorded cfg s.client.fdMap path flags fd ∧ s'.opened = s.opened := by
  obtain ⟨r, hr, rfl⟩ := Option.map_eq_some_iff.mp h
  exact ⟨ftcTrackFile_fdMap (toOption_eq_some hr), rfl⟩

/-- A step keeps what is tracked read-only, and tracks alike, exactly when it is harmless. -/
theorem step_readOnly (h : ReadOnly s) {op : Op} (hs : s.step cfg op = some s') :
    (ReadOnly s' ∧ TracksAlike cfg op) ↔ Harmless cfg op := by
  cases op with
  | openFile path flags fd cell =>
    simp only [Process.step, Process.openFile] at hs
    split at hs
    case isTrue hg =>
      obtain ⟨hm, ho⟩ := track_effect hs
      simp only [TracksAlike, and_true, Harmless]
      exact opened_readOnly h hg.2 hm ho
    case isFalse => cases hs
  | fopen path mode fd cell =>
    obtain ⟨flags, hflags, hs⟩ := Option.bind_eq_some_iff.mp hs
    split at hs
    case isTrue hg =>
      obtain ⟨hm, ho⟩ := track_effect hs
      have hread := opened_readOnly h hg.2 hm ho
      have hmode : Harmless cfg (.fopen path mode fd cell) ↔
          ((trackedPath cfg path oRdonly).isSome → ¬Writable flags) := by
        simp [Harmless, hflags]
      rw [hread, hmode]
      exact and_iff_left_of_imp fun hno ↦ tracksAlike_of_harmless (hmode.mpr hno)
    case isFalse => cases hs
  | close fd =>
    obtain ⟨⟨cl, sent⟩, hr, rfl⟩ := Option.map_eq_some_iff.mp hs
    refine iff_of_true ⟨fun j p hp ↦ ?_, trivial⟩ trivial
    rw [ftcRemoveFd_fdMap hr] at hp
    by_cases hj : j = fd
    · simp [hj] at hp
    · obtain ⟨hopen, hno⟩ := h j p (by simpa [hj] using hp)
      unfold Process.CanWrite at hno ⊢
      simpa [hj] using And.intro hopen hno
  | openCb fd cell r =>
    obtain ⟨cl, hcl, rfl⟩ := Option.map_eq_some_iff.mp hs
    refine iff_of_true ⟨fun j p hp ↦ h j p ?_, trivial⟩ trivial
    rwa [← openCb_fdMap hcl]
  | timeOut host =>
    cases hs
    exact iff_of_true ⟨fun j p hp ↦ h j p hp, trivial⟩ trivial

theorem start_readOnly (cl : Client) (inherited : PMap Fd (BitVec 32)) :
    ReadOnly (start cl inherited) := by
  simp [ReadOnly, start]

/-- In every completed run what is tracked is read-only throughout, and the entry points
agree, exactly when every open of a file to be tracked is without write access. -/
theorem tracked_are_read_only (cfg : Config) (cl : Client) (inherited : PMap Fd (BitVec 32))
    (ops : List Op) (s : Process)
    (h : exec (Process.step cfg) (start cl inherited) ops = some s) :
    Along (Process.step cfg)
        (fun a op ↦ (∀ b ∈ a.step cfg op, ReadOnly b) ∧ TracksAlike cfg op) (start cl inherited)
        ops ↔
      ∀ op ∈ ops, Harmless cfg op := by
  rw [← Along.iff_forall h]
  refine Along.congr_of_step (I := ReadOnly) (fun a op b ha hb ↦ ?_) (start_readOnly cl inherited) h
  simp only [hb, Option.mem_some_iff, forall_eq']
  exact ⟨step_readOnly ha hb, fun hl ↦ ((step_readOnly ha hb).mpr hl).1⟩

def sampleProcess : Process := start sampleClient fun _ ↦ none

def readingRun : List Op :=
  [.fopen samplePath ['r', 'b'] 3 8, .openCb 3 8 (.output 7), .openFile otherPath oRdonly 4 8,
    .close 3, .openFile samplePath oWronly 3 8]

theorem tracked_are_read_only_reading :
    ∃ s, exec (Process.step sampleConfig) sampleProcess readingRun = some s ∧
      s.client.fdMap 4 = some otherPath ∧
      Along (Process.step sampleConfig) (fun a op ↦
        (∀ b ∈ a.step sampleConfig op, ReadOnly b) ∧ TracksAlike sampleConfig op)
        sampleProcess readingRun := by
  obtain ⟨s, hs, hmap⟩ := (Option.any_eq_true (fun s ↦ s.client.fdMap 4 = some otherPath)
    (exec (Process.step sampleConfig) sampleProcess readingRun)).mp (by decide +kernel)
  refine ⟨s, hs, by simpa using hmap, ?_⟩
  refine (tracked_are_read_only sampleConfig sampleClient (fun _ ↦ none) readingRun s hs).mpr ?_
  have hmode : modeFlags ['r', 'b'] = some oRdonly := by decide +kernel
  have hread : ¬Writable oRdonly := by decide
  have huntracked : trackedPath sampleConfig samplePath oWronly = none := by decide +kernel
  simp [readingRun, Harmless, hmode, hread, huntracked]

/-- A file opened with `O_RDWR`, or by `fopen` for writing, is tracked and can be written. -/
theorem tracked_can_be_written :
    ¬(∀ (flags : BitVec 32) (s : Process),
      sampleProcess.step sampleConfig (.openFile samplePath flags 3 8) = some s → ReadOnly s) ∧
    ¬∀ (mode : List Char) (s : Process),
      sampleProcess.step sampleConfig (.fopen samplePath mode 3 8) = some s →
      ReadOnly s ∧ TracksAlike sampleConfig (.fopen samplePath mode 3 8) := by
  have hstart : ReadOnly sampleProcess := start_readOnly _ _
  have htracked : (trackedPath sampleConfig samplePath oRdonly).isSome := by decide +kernel
  constructor
  · intro h
    obtain ⟨s, hs⟩ := Option.isSome_iff_exists.mp (show (sampleProcess.step sampleConfig
      (.openFile samplePath oRdwr 3 8)).isSome by decide +kernel)
    have hno := (step_readOnly hstart hs).mp ⟨h oRdwr s hs, trivial⟩
    exact hno (by decide +kernel) (by decide)
  · intro h
    obtain ⟨s, hs⟩ := Option.isSome_iff_exists.mp (show (sampleProcess.step sampleConfig
      (.fopen samplePath ['w'] 3 8)).isSome by decide +kernel)
    have hno := (step_readOnly hstart hs).mp (h ['w'] s hs)
    have hmode : modeFlags ['w'] = some (oWronly ||| (oCreat ||| oTrunc)) := by decide +kernel
    exact hno htracked _ hmode (by decide)

end FTCache.AccessModes
