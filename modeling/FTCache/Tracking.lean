import FTCache.Library.Runs
import FTCache.World

namespace FTCache.Tracking

open Runs Client

/-- What a descriptor of the kernel refers to. -/
inductive Target
  | named (p : Path)
  | link (p : Path)
  | unnamed
  deriving DecidableEq

def oTmpfile : BitVec 32 := 0o20200000
def oPath : BitVec 32 := 0o10000000
def oNofollow : BitVec 32 := 0o400000

/-- A process with the descriptors and streams its kernel and libc keep for it. -/
structure Process where
  client : Client
  kernel : PMap Fd Target
  streams : PMap ℕ Fd

/-- The calls that create or release descriptors, answered by the kernel with
`fd`, and what the progress thread and the clock do meanwhile. -/
inductive Op
  | openFile (path : Path) (flags : BitVec 32) (fd : Fd) (target : Target) (cell : Addr)
  | fopen (path : Path) (fd : Fd) (stream : ℕ) (cell : Addr)
  | close (fd : Fd)
  | fclose (stream : ℕ)
  | openCb (fd : Fd) (cell : Addr) (r : Completion)
  | timeOut (host : Host)
  deriving DecidableEq

/-- What an `open` of a path with these flags can refer to. -/
def Resolves (cfg : Config) (path : Path) (flags : BitVec 32) : Target → Prop
  | .named p => cfg.canonical path = some p
  | .link _ => flags &&& (oPath ||| oNofollow) = oPath ||| oNofollow
  | .unnamed => flags &&& oTmpfile = oTmpfile

instance (cfg : Config) (path : Path) (flags : BitVec 32) :
    (t : Target) → Decidable (Resolves cfg path flags t)
  | .named p => inferInstanceAs (Decidable (cfg.canonical path = some p))
  | .link _ => inferInstanceAs (Decidable (_ = oPath ||| oNofollow))
  | .unnamed => inferInstanceAs (Decidable (_ = oTmpfile))

namespace Process

variable (cfg : Config) (s : Process)

/-- `ftc_track_file`, as the wrappers call it on a descriptor just obtained. -/
def track (path : Path) (flags : BitVec 32) (fd : Fd) (cell : Addr) : Option Process :=
  ((s.client.ftcTrackFile cfg true path flags fd cell).toOption).map
    fun r ↦ { s with client := r.1 }

/-- The wrappers of `open` and `open64`. -/
def openFile (path : Path) (flags : BitVec 32) (fd : Fd) (target : Target) (cell : Addr) :
    Option Process :=
  if 0 ≤ fd ∧ s.kernel fd = none ∧ Resolves cfg path flags target then
    { s with kernel := s.kernel.insert fd target }.track cfg path flags fd cell
  else none

/-- The wrappers of `fopen` and `fopen64`, which track as if for reading. -/
def fopen (path : Path) (fd : Fd) (stream : ℕ) (cell : Addr) : Option Process :=
  (cfg.canonical path).bind fun p ↦
    if 0 ≤ fd ∧ s.kernel fd = none ∧ s.streams stream = none then
      { s with
        kernel := s.kernel.insert fd (.named p)
        streams := s.streams.insert stream fd }.track cfg path oRdonly fd cell
    else none

def close (fd : Fd) : Option Process :=
  ((s.client.ftcRemoveFd cfg true fd).toOption).map fun r ↦
    { s with client := r.1, kernel := s.kernel.erase fd }

def fclose (stream : ℕ) : Option Process :=
  (s.streams stream).map fun fd ↦
    { s with kernel := s.kernel.erase fd, streams := s.streams.erase stream }

def step (s : Process) : Op → Option Process
  | .openFile path flags fd target cell => s.openFile cfg path flags fd target cell
  | .fopen path fd stream cell => s.fopen cfg path fd stream cell
  | .close fd => s.close cfg fd
  | .fclose stream => s.fclose stream
  | .openCb fd cell r => ((s.client.ftcOpenCb fd cell r).toOption).map
      fun cl ↦ { s with client := cl }
  | .timeOut host => some { s with client := s.client.timeOut host }

end Process

/-- Nothing is tracked yet; descriptors and streams may be inherited. -/
def start (cl : Client) (own : PMap Fd Target) (streams : PMap ℕ Fd) : Process where
  client := { cl with fdMap := fun _ ↦ none }
  kernel := own
  streams := streams

/-- Every entry of `fd_map` names the file its descriptor refers to. -/
def Described (s : Process) : Prop :=
  ∀ fd p, s.client.fdMap fd = some p → s.kernel fd = some (.named p)

/-- A request for a descriptor is for the file the descriptor refers to. -/
def Directed (cfg : Config) (s : Process) : Prop :=
  ∀ k cell cl sent, Started cfg s.client cell k cl (some sent) →
    (∀ path flags fd, k ≠ .openFile path flags fd) → s.kernel k.fd = some (.named sent.path)

/-- What is tracked is opened by name, and no tracked descriptor is closed behind the wrappers. -/
def Keeps (cfg : Config) (s : Process) : Op → Prop
  | .openFile path flags _ target _ => ∀ p ∈ trackedPath cfg path flags, target = .named p
  | .fclose stream => ∀ fd ∈ s.streams stream, s.client.fdMap fd = none
  | _ => True

instance (cfg : Config) (s : Process) : (op : Op) → Decidable (Keeps cfg s op)
  | .openFile path flags _ target _ =>
    inferInstanceAs (Decidable (∀ p ∈ trackedPath cfg path flags, target = .named p))
  | .fclose stream =>
    inferInstanceAs (Decidable (∀ fd ∈ s.streams stream, s.client.fdMap fd = none))
  | .fopen _ _ _ _ => isTrue trivial
  | .close _ => isTrue trivial
  | .openCb _ _ _ => isTrue trivial
  | .timeOut _ => isTrue trivial

variable {cfg : Config} {s s' : Process}

def recorded (cfg : Config) (m : PMap Fd Path) (path : Path) (flags : BitVec 32) (fd : Fd) :
    PMap Fd Path :=
  match trackedPath cfg path flags with
  | none => m
  | some p => m.insert fd p

theorem ftcTrackFile_fdMap {cl cl' : Client} {path : Path} {flags : BitVec 32} {fd : Fd}
    {cell : Addr} {tracked : Bool} {sent : Option Sent}
    (h : cl.ftcTrackFile cfg true path flags fd cell = .ok (cl', tracked, sent)) :
    cl'.fdMap = recorded cfg cl.fdMap path flags fd := by
  unfold recorded
  unfold ftcTrackFile at h
  cases ht : trackedPath cfg path flags with
  | none =>
    simp only [ht] at h
    cases h
    rfl
  | some p =>
    simp only [ht] at h
    split at h
    · cases h
      rfl
    · obtain ⟨r, hr, he⟩ := toOption_map_eq_some (congrArg Except.toOption h)
      obtain rfl := forward_ok hr
      cases he
      rfl

theorem track_effect {path : Path} {flags : BitVec 32} {fd : Fd} {cell : Addr}
    (h : s.track cfg path flags fd cell = some s') :
    s'.client.fdMap = recorded cfg s.client.fdMap path flags fd ∧ s'.kernel = s.kernel := by
  obtain ⟨r, hr, rfl⟩ := Option.map_eq_some_iff.mp h
  exact ⟨ftcTrackFile_fdMap (toOption_eq_some hr), rfl⟩

theorem ftcRemoveFd_fdMap {cl cl' : Client} {fd : Fd} {sent : Option Sent}
    (h : (cl.ftcRemoveFd cfg true fd).toOption = some (cl', sent)) :
    cl'.fdMap = cl.fdMap.erase fd := by
  have hstart : cl.startCall cfg (.close fd) 0 = some (cl', sent) := h
  cases startCall_started hstart with
  | closeLocal => rfl
  | closeSent => rfl
  | transferLocal _ _ _ _ _ hk => cases hk
  | transferSent _ _ _ _ _ _ _ hk => cases hk

theorem close_effect {fd : Fd} (h : s.close cfg fd = some s') :
    s'.client.fdMap = s.client.fdMap.erase fd ∧ s'.kernel = s.kernel.erase fd := by
  obtain ⟨⟨cl, sent⟩, hr, rfl⟩ := Option.map_eq_some_iff.mp h
  exact ⟨ftcRemoveFd_fdMap hr, rfl⟩

theorem openCb_fdMap {cl cl' : Client} {fd : Fd} {cell : Addr} {r : Completion}
    (h : (cl.ftcOpenCb fd cell r).toOption = some cl') : cl'.fdMap = cl.fdMap := by
  cases r <;> cases h <;> rfl

theorem opened_described {path : Path} {flags : BitVec 32} {fd : Fd} {target : Target}
    (h : Described s) (hfree : s.kernel fd = none)
    (hm : s'.client.fdMap = recorded cfg s.client.fdMap path flags fd)
    (hk : s'.kernel = s.kernel.insert fd target) :
    Described s' ↔ ∀ p ∈ trackedPath cfg path flags, target = .named p := by
  have hunused : s.client.fdMap fd = none := by
    by_contra hne
    obtain ⟨p, hp⟩ := Option.ne_none_iff_exists'.mp hne
    have hopen := h fd p hp
    simp [hfree] at hopen
  unfold Described recorded at *
  rw [hm, hk]
  cases ht : trackedPath cfg path flags with
  | none =>
    refine iff_of_true (fun j p hj ↦ ?_) (by simp)
    have hjf : j ≠ fd := by
      intro he
      subst he
      simp [hunused] at hj
    simpa [hjf] using h j p hj
  | some q =>
    constructor
    · rintro hd p ⟨⟩
      simpa using hd fd q (by simp)
    · intro hq j p hj
      by_cases hjf : j = fd
      · subst j
        obtain rfl : q = p := by simpa using hj
        simp [hq]
      · simpa [hjf] using h j p (by simpa [hjf] using hj)

/-- A step keeps the description of the kernel's table exactly when it meets `Keeps`. -/
theorem step_described (h : Described s) {op : Op} (hs : s.step cfg op = some s') :
    Described s' ↔ Keeps cfg s op := by
  cases op with
  | openFile path flags fd target cell =>
    simp only [Process.step, Process.openFile] at hs
    split at hs
    case isTrue hg =>
      obtain ⟨hm, hk⟩ := track_effect hs
      exact opened_described h hg.2.1 hm hk
    case isFalse => cases hs
  | fopen path fd stream cell =>
    obtain ⟨p, hp, hs⟩ := Option.bind_eq_some_iff.mp hs
    split at hs
    case isTrue hg =>
      obtain ⟨hm, hk⟩ := track_effect hs
      refine iff_of_true ((opened_described h hg.2.1 hm hk).mpr fun q hq ↦ ?_) trivial
      rw [trackedPath_canonical hq hp]
    case isFalse => cases hs
  | close fd =>
    obtain ⟨hm, hk⟩ := close_effect hs
    refine iff_of_true (fun j p hj ↦ ?_) trivial
    rw [hm] at hj
    by_cases hjf : j = fd
    · simp [hjf] at hj
    · simpa [hk, hjf] using h j p (by simpa [hjf] using hj)
  | fclose stream =>
    obtain ⟨fd, hfd, rfl⟩ := Option.map_eq_some_iff.mp hs
    constructor
    · intro hd j hj
      obtain rfl : fd = j := Option.some.inj (hfd.symm.trans hj)
      by_contra hne
      obtain ⟨p, hp⟩ := Option.ne_none_iff_exists'.mp hne
      simpa using hd fd p hp
    · intro hl j p hj
      have hjf : j ≠ fd := by
        intro he
        subst he
        simp [hl j hfd] at hj
      simpa [hjf] using h j p hj
  | openCb fd cell r =>
    obtain ⟨cl, hcl, rfl⟩ := Option.map_eq_some_iff.mp hs
    refine iff_of_true (fun j p hj ↦ h j p ?_) trivial
    rwa [← openCb_fdMap hcl]
  | timeOut host =>
    cases hs
    exact iff_of_true (fun j p hj ↦ h j p hj) trivial

theorem directed_of_described (h : Described s) : Directed cfg s := by
  intro k cell cl sent hs hk
  cases hs with
  | openSent path p flags fd => exact absurd rfl (hk path flags fd)
  | transferSent k p fd buf count offset cache hk hp ho =>
    rw [Call.fd_of_transfer hk]
    exact h fd p hp
  | lseekSent p fd offset whence cache hp => exact h fd p hp
  | closeSent p fd cache hp ho => exact h fd p hp

theorem start_described (cl : Client) (own : PMap Fd Target) (streams : PMap ℕ Fd) :
    Described (start cl own streams) := by
  simp [Described, start]

/-- In every completed run `fd_map` describes the kernel's table throughout
exactly when every step meets `Keeps`, and then requests go where they should. -/
theorem tracking_describes_kernel (cfg : Config) (cl : Client) (own : PMap Fd Target)
    (streams : PMap ℕ Fd) (ops : List Op) (s : Process)
    (h : exec (Process.step cfg) (start cl own streams) ops = some s) :
    (Along (Process.step cfg) (fun a op ↦ ∀ b ∈ a.step cfg op, Described b)
        (start cl own streams) ops ↔
      Along (Process.step cfg) (Keeps cfg) (start cl own streams) ops) ∧
    (Along (Process.step cfg) (Keeps cfg) (start cl own streams) ops →
      Described s ∧ Directed cfg s) := by
  have h₀ := start_described cl own streams
  refine ⟨Along.iff_of_step (fun _ _ _ ha hb ↦ step_described ha hb) h₀ h, fun hl ↦ ?_⟩
  have hs : Described s := (Reach.of_exec h hl).invariant Described h₀
    fun _ _ _ ha hop hb ↦ (step_described ha hb).mpr hop
  exact ⟨hs, directed_of_described hs⟩

/-- A number is used again by a stream after `close`, and the stream stays open. -/
def reusedRun : List Op :=
  [.openFile samplePath 0 3 (.named samplePath) 8, .openCb 3 8 (.output 7), .close 3,
    .fopen otherPath 3 1 8, .timeOut 0]

theorem tracking_describes_kernel_reused :
    ∃ s, s.client.fdMap 3 = some otherPath ∧ Described s ∧ Directed sampleConfig s := by
  obtain ⟨s, hs, hmap⟩ := (Option.any_eq_true (fun s ↦ s.client.fdMap 3 = some otherPath)
    (exec (Process.step sampleConfig) (start sampleClient (fun _ ↦ none) fun _ ↦ none)
      reusedRun)).mp (by decide +kernel)
  exact ⟨s, by simpa using hmap, (tracking_describes_kernel _ _ _ _ _ s hs).2 (by decide +kernel)⟩

/-- A tracked stream is closed, and its number is given to a file that is not tracked. -/
theorem tracking_misdescribes_kernel :
    ¬∀ (ops : List Op) (s : Process), exec (Process.step sampleConfig)
      (start sampleClient (fun _ ↦ none) fun _ ↦ none) ops = some s → Described s := by
  intro h
  obtain ⟨s, hs, hstale⟩ := (Option.any_eq_true
    (fun s ↦ s.client.fdMap 3 = some samplePath ∧ s.kernel 3 = some (.named otherPath))
    (exec (Process.step sampleConfig) (start sampleClient (fun _ ↦ none) fun _ ↦ none)
      [.fopen samplePath 3 1 8, .fclose 1,
        .openFile otherPath oWronly 3 (.named otherPath) 8])).mp (by decide +kernel)
  obtain ⟨hmap, hkernel⟩ := of_decide_eq_true hstale
  have hd := h _ s hs 3 samplePath hmap
  rw [hkernel] at hd
  revert hd
  decide

end FTCache.Tracking
