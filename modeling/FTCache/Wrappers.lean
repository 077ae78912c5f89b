import FTCache.Client

namespace FTCache.Client

open Posix Words

variable (cfg : Config) (cl : Client)

/-- `__real_open` answered with `fd`. -/
def realOpen (path : Path) (fd : Fd) : Option Client :=
  (cfg.canonical path).bind fun p ↦
    if Grants cfg.files cl.kernel p fd then
      some { cl with kernel := cl.kernel.insert fd ⟨p, 0⟩ }
    else none

def realRead (fd : Fd) (buf : Addr) (count : ℕ) : Client × ℤ :=
  let r := read cfg.files cl.kernel fd count
  ({ cl with kernel := r.2, memory := cl.memory.store buf (r.1.getD []) }, transferred r.1)

def realPread (fd : Fd) (buf : Addr) (count : ℕ) (offset : ℤ) : Client × ℤ :=
  let r := pread cfg.files cl.kernel fd count offset
  ({ cl with memory := cl.memory.store buf (r.getD []) }, transferred r)

def realLseek (fd : Fd) (offset whence : ℤ) : Client × ℤ :=
  let r := lseek cfg.files cl.kernel fd offset whence
  ({ cl with kernel := r.2 }, offsetReturned r.1)

def realClose (fd : Fd) : Client × ℤ :=
  ({ cl with kernel := cl.kernel.erase fd }, if (cl.kernel fd).isSome then 0 else -1)

/-- What a transfer hands back: its value and the bytes now in the buffer. -/
def transferResult (buf : Addr) (r : Client × ℤ) : Client × Result :=
  (r.1, ⟨r.2, r.1.memory.load buf r.2.toNat⟩)

/-- The wrapper of `read` after `ftc_remote_read`; `ret` is an `int` there. -/
def finishRead (fd : Fd) (buf : Addr) (count : ℕ) (ret : ℤ) : Client × Result :=
  if int32 ret < 0 then
    let r := cl.realRead cfg fd buf count
    transferResult buf (r.1, int32 r.2)
  else transferResult buf (cl, int32 ret)

/-- The wrapper of `pread` after `ftc_remote_pread`, or for an untracked descriptor. -/
def finishPread (fd : Fd) (buf : Addr) (count : ℕ) (offset ret : ℤ) : Client × Result :=
  if ret < 0 then transferResult buf (cl.realPread cfg fd buf count offset)
  else transferResult buf (cl, ret)

/-- The wrapper of `lseek`: a tracked descriptor gets the remote value, whatever it is. -/
def finishLseek (fd offset whence ret : ℤ) : Client × Result :=
  if cl.ftcFileTracked fd then (cl, ⟨ret, []⟩)
  else
    let r := cl.realLseek cfg fd offset whence
    (r.1, ⟨r.2, []⟩)

/-- The part of a wrapper that runs before its thread can block. It ends with
the request that was forwarded, or with none. -/
def startCall (k : Call) (cell : Addr) : Option (Client × Option Sent) :=
  match k with
  | .openFile path flags fd =>
    (cl.realOpen cfg path fd).bind fun cl ↦
      ((cl.ftcTrackFile cfg true path flags fd cell).toOption).map fun r ↦ (r.1, r.2.2)
  | .read fd buf count => (cl.ftcRemoteRead cfg true fd buf count cell).toOption
  | .pread fd buf count offset => (cl.ftcRemotePread cfg true fd buf count offset cell).toOption
  -- ftc_remote_lseek takes the offset as an int
  | .lseek fd offset whence => (cl.ftcRemoteLseek cfg true fd (int32 offset) whence).toOption
  | .close fd => (cl.ftcRemoveFd cfg true fd).toOption

/-- The rest of the wrapper, given what the remote call returned. -/
def finishCall (k : Call) (ret : ℤ) : Client × Result :=
  match k with
  | .openFile _ _ fd => (cl, ⟨fd, []⟩)
  | .read fd buf count => cl.finishRead cfg fd buf count ret
  | .pread fd buf count offset => cl.finishPread cfg fd buf count offset ret
  | .lseek fd offset whence => cl.finishLseek cfg fd offset whence ret
  | .close fd =>
    let r := cl.realClose fd
    (r.1, ⟨r.2, []⟩)

/-- Whether the blocked call sees its condition when it looks. -/
def replied (p : Pending) : Bool :=
  match p.call with
  | .lseek _ _ _ => cl.seekDone = 1
  | _ => (cl.cells p.cell).done

/-- The value the blocked call returns to its wrapper. -/
def remoteValue (p : Pending) : ℤ :=
  match p.call with
  | .lseek _ _ _ => cl.readRet
  | _ => (cl.cells p.cell).bytesRead

/-- `ftc_seek_block` waits without a time limit. -/
def timed : Call → Bool
  | .lseek _ _ _ => false
  | _ => true

/-- The end of a wrapper touches only memory and local descriptors, and only
`close` takes a local descriptor away. -/
theorem finishCall_shape (k : Call) (ret : ℤ) :
    ∃ kernel memory, (cl.finishCall cfg k ret).1 = { cl with kernel := kernel, memory := memory } ∧
      ∀ j, (kernel j).map Description.file =
        if k = .close j then none else (cl.kernel j).map Description.file := by
  cases k with
  | openFile path flags fd => exact ⟨cl.kernel, cl.memory, rfl, by simp⟩
  | read fd buf count =>
    simp only [finishCall, finishRead]
    split
    · exact ⟨_, _, rfl, fun j ↦ by simp [read_file]⟩
    · exact ⟨cl.kernel, cl.memory, rfl, by simp⟩
  | pread fd buf count offset =>
    simp only [finishCall, finishPread]
    split
    · exact ⟨cl.kernel, _, rfl, by simp⟩
    · exact ⟨cl.kernel, cl.memory, rfl, by simp⟩
  | lseek fd offset whence =>
    simp only [finishCall, finishLseek]
    split
    · exact ⟨cl.kernel, cl.memory, rfl, by simp⟩
    · exact ⟨_, cl.memory, rfl, fun j ↦ by simp [lseek_file]⟩
  | close fd =>
    refine ⟨cl.kernel.erase fd, cl.memory, rfl, fun j ↦ ?_⟩
    by_cases hj : fd = j
    · simp [hj]
    · simp [hj, Ne.symm hj]

theorem finishCall_maps (k : Call) (ret : ℤ) :
    (cl.finishCall cfg k ret).1.fdMap = cl.fdMap ∧
      (cl.finishCall cfg k ret).1.fdRedirMap = cl.fdRedirMap := by
  obtain ⟨kernel, memory, he, -⟩ := cl.finishCall_shape cfg k ret
  rw [he]
  exact ⟨rfl, rfl⟩

theorem finishCall_blocked (k : Call) (ret : ℤ) :
    (cl.finishCall cfg k ret).1.blocked = cl.blocked := by
  obtain ⟨kernel, memory, he, -⟩ := cl.finishCall_shape cfg k ret
  rw [he]

theorem finishCall_counters (k : Call) (ret : ℤ) :
    (cl.finishCall cfg k ret).1.timeoutCounters = cl.timeoutCounters := by
  obtain ⟨kernel, memory, he, -⟩ := cl.finishCall_shape cfg k ret
  rw [he]

/-- How a call can start: what its wrapper has done when it blocks, returns or
goes to the real call, and the request it has forwarded. -/
inductive Started (cfg : Config) (cl : Client) (cell : Addr) :
    Call → Client → Option Sent → Prop
  | openUntracked (path p : Path) (flags : BitVec 32) (fd : Fd)
      (hp : cfg.canonical path = some p) (hg : Grants cfg.files cl.kernel p fd)
      (ht : trackedPath cfg path flags = none) :
      Started cfg cl cell (.openFile path flags fd)
        { cl with kernel := cl.kernel.insert fd ⟨p, 0⟩ } none
  | openOver (path p : Path) (flags : BitVec 32) (fd : Fd)
      (hp : cfg.canonical path = some p) (hg : Grants cfg.files cl.kernel p fd)
      (ht : trackedPath cfg path flags = some p) (ho : cl.overLimit (cfg.host p)) :
      Started cfg cl cell (.openFile path flags fd)
        { cl with
          kernel := cl.kernel.insert fd ⟨p, 0⟩
          fdMap := cl.fdMap.insert fd p } none
  | openSent (path p : Path) (flags : BitVec 32) (fd : Fd) (cache : PMap Host Address)
      (hp : cfg.canonical path = some p) (hg : Grants cfg.files cl.kernel p fd)
      (ht : trackedPath cfg path flags = some p) (ho : ¬cl.overLimit (cfg.host p)) :
      Started cfg cl cell (.openFile path flags fd)
        { cl with
          kernel := cl.kernel.insert fd ⟨p, 0⟩
          fdMap := cl.fdMap.insert fd p
          addressCache := cache
          cells := Function.update cl.cells cell {} }
        (some ⟨cfg.host p, p, .openRpc ⟨p, fd⟩, .openCb fd cell⟩)
  | transferLocal (k : Call) (fd : Fd) (buf : Addr) (count : ℕ) (offset : ℤ)
      (hk : k.transfer = some (fd, buf, count, offset))
      (hl : ∀ p, cl.fdMap fd = some p → cl.overLimit (cfg.host p)) :
      Started cfg cl cell k cl none
  | transferSent (k : Call) (p : Path) (fd : Fd) (buf : Addr) (count : ℕ) (offset : ℤ)
      (cache : PMap Host Address) (hk : k.transfer = some (fd, buf, count, offset))
      (hp : cl.fdMap fd = some p) (ho : ¬cl.overLimit (cfg.host p)) :
      Started cfg cl cell k
        { cl with
          addressCache := cache
          fdRedirMap := cl.fdRedirMap.touch fd
          cells := Function.update cl.cells cell {} }
        (some ⟨cfg.host p, p, .baseRpc (transferIn (cl.fdRedirMap.index fd) fd count offset),
          .readCb buf cell⟩)
  | lseekLocal (fd offset whence : ℤ) (hp : cl.fdMap fd = none) :
      Started cfg cl cell (.lseek fd offset whence) cl none
  | lseekSent (p : Path) (fd offset whence : ℤ) (cache : PMap Host Address)
      (hp : cl.fdMap fd = some p) :
      Started cfg cl cell (.lseek fd offset whence)
        { cl with
          addressCache := cache
          fdRedirMap := cl.fdRedirMap.touch fd
          seekDone := 0
          readRet := -1 }
        (some ⟨cfg.host p, p, .seekRpc ⟨cl.fdRedirMap.index fd, int32 offset, whence⟩, .seekCb⟩)
  | closeLocal (fd : Fd) (hl : ∀ p, cl.fdMap fd = some p → cl.overLimit (cfg.host p)) :
      Started cfg cl cell (.close fd) { cl with fdMap := cl.fdMap.erase fd } none
  | closeSent (p : Path) (fd : Fd) (cache : PMap Host Address) (hp : cl.fdMap fd = some p)
      (ho : ¬cl.overLimit (cfg.host p)) :
      Started cfg cl cell (.close fd)
        { cl with
          addressCache := cache
          fdRedirMap := cl.fdRedirMap.erase fd
          fdMap := cl.fdMap.erase fd }
        (some ⟨cfg.host p, p, .closeRpc ⟨cl.fdRedirMap.index fd⟩, .none⟩)

theorem complete_blocked {cl cl' : Client} {out : ℤ} {cb : Callback}
    (h : cl.complete out cb = .ok cl') : cl'.blocked = cl.blocked := by
  cases cb <;> cases h <;> rfl

theorem complete_counters {cl cl' : Client} {out : ℤ} {cb : Callback}
    (h : cl.complete out cb = .ok cl') : cl'.timeoutCounters = cl.timeoutCounters := by
  cases cb <;> cases h <;> rfl

theorem complete_memory {cl cl' : Client} {out : ℤ} {cb : Callback}
    (h : cl.complete out cb = .ok cl') : cl'.memory = cl.memory := by
  cases cb <;> cases h <;> rfl

theorem started_blocked {cfg : Config} {cl cl' : Client} {k : Call} {cell : Addr}
    {s : Option Sent} (h : Started cfg cl cell k cl' s) : cl'.blocked = cl.blocked := by
  cases h <;> rfl

theorem started_counters {cfg : Config} {cl cl' : Client} {k : Call} {cell : Addr}
    {s : Option Sent} (h : Started cfg cl cell k cl' s) :
    cl'.timeoutCounters = cl.timeoutCounters := by
  cases h <;> rfl

theorem forward_ok {sent r : Client × Sent} {addr : Lookup} {forwards : Bool}
    (h : forward forwards sent addr = .ok r) : r = sent := by
  unfold forward at h
  split at h
  · split at h <;> cases h
    rfl
  · cases h
  · cases h

theorem toOption_eq_some {α : Type} {e : Except Fault α} {a : α} (h : e.toOption = some a) :
    e = .ok a := by
  cases e with
  | error _ => cases h
  | ok _ => exact congrArg _ (Option.some.inj h)

theorem toOption_map_eq_some {α β : Type} {e : Except Fault α} {f : α → β} {b : β}
    (h : (e.map f).toOption = some b) : ∃ a, e = .ok a ∧ f a = b := by
  cases e with
  | error _ => cases h
  | ok a => exact ⟨a, rfl, Option.some.inj h⟩

variable {cfg cl}

theorem remoteTransfer_started {k : Call} {fd : Fd} {buf : Addr} {count : ℕ} {offset : ℤ}
    {cell : Addr} {cl' : Client} {s : Option Sent}
    (hk : k.transfer = some (fd, buf, count, offset))
    (h : (cl.remoteTransfer cfg true fd buf count offset cell).toOption = some (cl', s)) :
    Started cfg cl cell k cl' s := by
  unfold remoteTransfer at h
  cases hp : cl.fdMap fd with
  | none =>
    simp only [hp] at h
    cases h
    exact .transferLocal k fd buf count offset hk (by simp [hp])
  | some p =>
    simp only [hp] at h
    split at h
    case isTrue ho =>
      cases h
      exact .transferLocal k fd buf count offset hk (by simpa [hp] using ho)
    case isFalse ho =>
      obtain ⟨r, hr, he⟩ := toOption_map_eq_some h
      simp only [ftcClientCommGenReadRpc] at hr
      split at hr
      · cases hr
      · obtain rfl := forward_ok hr
        cases he
        exact .transferSent k p fd buf count offset _ hk hp ho

theorem startCall_started {k : Call} {cell : Addr} {cl' : Client} {s : Option Sent}
    (h : cl.startCall cfg k cell = some (cl', s)) : Started cfg cl cell k cl' s := by
  cases k with
  | openFile path flags fd =>
    obtain ⟨cl₁, h₁, h₂⟩ := Option.bind_eq_some_iff.mp h
    obtain ⟨p, hp, hg⟩ := Option.bind_eq_some_iff.mp h₁
    obtain ⟨r, hr, he⟩ := Option.map_eq_some_iff.mp h₂
    split at hg
    case isFalse => cases hg
    case isTrue hgr =>
      cases hg
      cases he
      unfold ftcTrackFile at hr
      cases ht : trackedPath cfg path flags with
      | none =>
        simp only [ht] at hr
        cases hr
        exact .openUntracked path p flags fd hp hgr ht
      | some p' =>
        obtain rfl : p' = p := trackedPath_canonical ht hp
        simp only [ht] at hr
        split at hr
        case isTrue ho =>
          cases hr
          exact .openOver path p' flags fd hp hgr ht ho
        case isFalse ho =>
          obtain ⟨r', hr', he⟩ := toOption_map_eq_some hr
          obtain rfl := forward_ok hr'
          cases he
          exact .openSent path p' flags fd _ hp hgr ht ho
  | read fd buf count => exact remoteTransfer_started rfl h
  | pread fd buf count offset => exact remoteTransfer_started rfl h
  | lseek fd offset whence =>
    simp only [startCall, ftcRemoteLseek] at h
    cases hp : cl.fdMap fd with
    | none =>
      simp only [hp] at h
      cases h
      exact .lseekLocal fd offset whence hp
    | some p =>
      simp only [hp] at h
      obtain ⟨r, hr, he⟩ := toOption_map_eq_some h
      obtain rfl := forward_ok hr
      cases he
      exact .lseekSent p fd offset whence _ hp
  | close fd =>
    simp only [startCall, ftcRemoveFd] at h
    obtain ⟨r, hr, he⟩ := toOption_map_eq_some h
    unfold ftcRemoteClose at hr
    cases hp : cl.fdMap fd with
    | none =>
      simp only [hp] at hr
      cases hr
      cases he
      exact .closeLocal fd (by simp [hp])
    | some p =>
      simp only [hp] at hr
      split at hr
      case isTrue ho =>
        cases hr
        cases he
        exact .closeLocal fd (by simpa [hp] using ho)
      case isFalse ho =>
        cases hg : cl.ftcClientCommGenCloseRpc cfg true (cfg.host p) p fd with
        | error e =>
          rw [hg] at hr
          cases hr
        | ok r' =>
          rw [hg] at hr
          cases hr
          obtain rfl := forward_ok hg
          cases he
          exact .closeSent p fd _ hp ho

end FTCache.Client
