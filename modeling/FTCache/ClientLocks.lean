import FTCache.Library.Locks
import FTCache.TimedWaits
import FTCache.TimeoutCounters

/-! The threads of a client with each mutex taken and given up in a step of its own. -/

namespace FTCache.ClientLocks

open Runs Locks TimedWaits

/-- What the check of a counter stands in front of. -/
inductive Purpose
  | wait (k : Kind)
  | close (fd : Fd)
  deriving DecidableEq

/-- Where a thread stands in `ftc_track_file`, `ftc_remote_read`, `ftc_remote_pread` or
`ftc_remove_fd`. From `lockCheck` to `unlockCheck` it is at the block with the `std::lock_guard`. -/
inductive Place
  | outside
  | lockCheck (p : Purpose) (host : Host)
  | check (p : Purpose) (host : Host)
  | unlockCheck (p : Purpose) (host : Host) (passed : Bool)
  | passed (k : Kind) (host : Host)
  | calling (f : Frame)
  | removing (fd : Fd)
  deriving DecidableEq

/-- `HG_Trigger` runs one callback at a time. It is `lost` in one whose call has returned:
what it does there to a frame that is gone is undefined. -/
inductive Progress (T : Type)
  | idle
  | callback (t : T)
  | lost
  deriving DecidableEq

/-- The call returns, and its frame goes with it. -/
def Progress.leave {T : Type} [DecidableEq T] (t : T) (p : Progress T) : Progress T :=
  if p = .callback t then .lost else p

/-- `counting` holds `timeout_mutex`. The mutex of a call is in its frame. -/
structure Process (T : Type) where
  fdMap : PMap Fd Path
  timeoutCounters : List ℕ
  places : T → Place
  counting : Option T
  progress : Progress T

inductive Label (T : Type)
  | begin (t : T) (k : Call)
  | check (t : T)
  | forward (t : T)
  | call (t : T) (a : Act)
  | leave (t : T)
  | resize
  deriving DecidableEq

/-- Behind the block. A request to close has no reply to wait for. -/
def Purpose.next (host : Host) (passed : Bool) : Purpose → Place
  | .wait k => if passed then .passed k host else .outside
  | .close fd => .removing fd

namespace Process

variable {T : Type} [DecidableEq T] (cfg : Config) (s : Process T)

/-- `timeout_counters[host]`; outside the vector it has no value. -/
def counter (host : Host) : Option ℕ :=
  if 0 ≤ host then s.timeoutCounters[host.toNat]? else none

def move (t : T) (p : Place) : Process T := { s with places := Function.update s.places t p }

/-- From the call to the check; an untracked file needs none. -/
def begin (t : T) : Call → Option (Process T)
  | .openFile path flags fd =>
    some (match trackedPath cfg path flags with
      | none => s
      | some p =>
        { s with fdMap := s.fdMap.insert fd p }.move t
          (.lockCheck (.wait (.openFile fd)) (cfg.host p)))
  -- ftc_remote_lseek takes neither mutex
  | .lseek _ _ _ => none
  | .close fd => some (match s.fdMap fd with
      | none => s
      | some p => s.move t (.lockCheck (.close fd) (cfg.host p)))
  | k => some (match s.fdMap k.fd with
      | none => s
      | some p => s.move t (.lockCheck (.wait .read) (cfg.host p)))

def check (t : T) : Option (Process T) :=
  match s.places t with
  | .lockCheck p host =>
    if s.counting = none then some ({ s with counting := some t }.move t (.check p host)) else none
  | .check p host =>
    (s.counter host).map fun c ↦ s.move t (.unlockCheck p host (c < timeoutLimit))
  | .unlockCheck p host passed => some ({ s with counting := none }.move t (p.next host passed))
  -- fd_map.erase(fd)
  | .removing fd => some ({ s with fdMap := s.fdMap.erase fd }.move t .outside)
  | _ => none

/-- What a step of a call does outside its frame. -/
def effect (t : T) (f : Frame) : Act → Option (Process T)
  | .waiter =>
    match f.waiter with
    | .lockCounters => if s.counting = none then some { s with counting := some t } else none
    | .count => (s.counter f.host).map fun c ↦
        { s with timeoutCounters := s.timeoutCounters.set f.host.toNat (c + 1) }
    | .unlockCounters => some { s with counting := none }
    | _ => some s
  | .callback =>
    match f.callback with
    | .arrived _ =>
      if s.progress = .idle then some { s with progress := .callback t } else none
    | .unlock => some { s with progress := .idle }
    | _ => some s
  | _ => some s

def call (t : T) (a : Act) : Option (Process T) :=
  match s.places t with
  | .calling f =>
    (f.step a).bind fun f' ↦ (s.effect t f a).map fun s' ↦ s'.move t (.calling f')
  | _ => none

def leave (t : T) : Option (Process T) :=
  match s.places t with
  | .calling f =>
    match f.waiter with
    | .returned _ _ => some ({ s with progress := s.progress.leave t }.move t .outside)
    | _ => none
  | _ => none

def step (s : Process T) : Label T → Option (Process T)
  | .begin t k => if s.places t = .outside then s.begin cfg t k else none
  | .check t => s.check t
  | .forward t =>
    match s.places t with
    | .passed k host => some (s.move t (.calling { kind := k, host := host }))
    | _ => none
  | .call t a => s.call t a
  | .leave t => s.leave t
  | .resize => some { s with
      timeoutCounters :=
        TimeoutCounters.initializeTimeoutCounters s.timeoutCounters cfg.serverCount }

end Process

/-- The process once its library is loaded, with the vector empty. -/
def start (T : Type) : Process T where
  fdMap := fun _ ↦ none
  timeoutCounters := []
  places := fun _ ↦ .outside
  counting := none
  progress := .idle

section View

/-- The threads that call, and the one of `ftc_progress_fn`. -/
inductive Thread (T : Type)
  | client (t : T)
  | progress
  deriving DecidableEq

/-- `timeout_mutex`, and the mutex of the call that a thread is in. -/
inductive Mutex (T : Type)
  | timeout
  | call (t : T)
  deriving DecidableEq

variable {T : Type}

def Place.frame : Place → Option Frame
  | .calling f => some f
  | _ => none

/-- Between the steps that take and give up `timeout_mutex` for the counter. -/
def counts : Waiter → Bool
  | .count | .unlockCounters => true
  | _ => false

def Place.counts : Place → Bool
  | .check _ _ | .unlockCheck _ _ _ => true
  | .calling f => ClientLocks.counts f.waiter
  | _ => false

def party (t : T) : Party → Thread T
  | .waiter => .client t
  | .callback => .progress

/-- What a thread has taken at its place. -/
def Place.taken (t : T) (p : Place) : List (Mutex T) :=
  (if p.frame.any (·.waiter.inside) then [.call t] else []) ++
    if p.counts then [.timeout] else []

def Place.wanted (t : T) : Place → Option (Mutex T)
  | .lockCheck _ _ => some .timeout
  | .calling f =>
    if f.waiter = .lock ∨ f.waiter = .asleep then some (.call t)
    else if f.waiter = .lockCounters then some .timeout
    else none
  | _ => none

variable (s : Process T)

def Process.taken : Thread T → List (Mutex T)
  | .client t => (s.places t).taken t
  | .progress =>
    match s.progress with
    | .callback t => if (s.places t).frame.any (·.callback.inside) then [.call t] else []
    | _ => []

def Process.wanted : Thread T → Option (Mutex T)
  | .client t => (s.places t).wanted t
  | .progress =>
    match s.progress with
    | .callback t => if (s.places t).frame.any (·.callback = .lock) then some (.call t) else none
    | _ => none

def Process.holder : Mutex T → Option (Thread T)
  | .timeout => s.counting.map .client
  | .call t => ((s.places t).frame.bind (·.holder)).map (party t)

def Process.view : View (Thread T) (Mutex T) where
  holder := s.holder
  taken := s.taken
  wanted := s.wanted

/-- Whose step a label is; the clock and the network are no threads. -/
def Label.thread : Label T → Option (Thread T)
  | .begin t _ | .check t | .forward t | .leave t => some (.client t)
  | .call t .waiter | .call t (.wake _) => some (.client t)
  | .call _ .callback => some .progress
  | _ => none

end View

/-- Neither out of the loop nor counted. -/
def pending : Waiter → Bool
  | .lock | .test | .asleep | .lockCounters | .count => true
  | _ => false

/-- In the progress thread. -/
def running : TimedWaits.Callback → Bool
  | .lock | .set | .signal | .unlock => true
  | _ => false

section Steps

variable {T : Type} {cfg : Config} {s s' s₁ : Process T} {t : T} {f f' : Frame}

/-- What a step of a wait comes to. -/
inductive Waited (s : Process T) (t : T) (f f' : Frame) : Process T → Prop
  | locks (hfree : s.counting = none) (hw : f.waiter = .lockCounters) (hw' : f'.waiter = .count) :
      Waited s t f f' { s with counting := some t }
  | counts (c : ℕ) (hc : s.counter f.host = some c) (hw : f.waiter = .count)
      (hw' : f'.waiter = .unlockCounters) :
      Waited s t f f' { s with timeoutCounters := s.timeoutCounters.set f.host.toNat (c + 1) }
  | unlocks (hw : f.waiter = .unlockCounters) (hw' : f'.waiter = .unlock true f.noReply) :
      Waited s t f f' { s with counting := none }
  | answers (hw : f.waiter = .test) (hw' : f'.waiter = f.afterLoop) : Waited s t f f' s
  | moves (hc : ClientLocks.counts f.waiter = false) (hc' : ClientLocks.counts f'.waiter = false)
      (hp : pending f'.waiter = pending f.waiter) : Waited s t f f' s

/-- What a step of a callback comes to. -/
inductive Called (s : Process T) (t : T) (f f' : Frame) : Process T → Prop
  | begins (hidle : s.progress = .idle) (hr : running f.callback = false) :
      Called s t f f' { s with progress := .callback t }
  | goes (hr : running f.callback = true) : Called s t f f' s
  | ends (hr : running f.callback = true) (hr' : running f'.callback = false) :
      Called s t f f' { s with progress := .idle }

variable [DecidableEq T]

inductive Steps (cfg : Config) (s : Process T) : Process T → Prop
  | untracked : Steps cfg s s
  | opens (t : T) (path : Path) (flags : BitVec 32) (fd : Fd) (p : Path)
      (hp : s.places t = .outside) (ht : trackedPath cfg path flags = some p) :
      Steps cfg s ({ s with fdMap := s.fdMap.insert fd p }.move t
        (.lockCheck (.wait (.openFile fd)) (cfg.host p)))
  | reads (t : T) (k : Call) (p : Path) (hp : s.places t = .outside) (hk : k.transfer.isSome)
      (ht : s.fdMap k.fd = some p) :
      Steps cfg s (s.move t (.lockCheck (.wait .read) (cfg.host p)))
  | closes (t : T) (fd : Fd) (p : Path) (hp : s.places t = .outside) (ht : s.fdMap fd = some p) :
      Steps cfg s (s.move t (.lockCheck (.close fd) (cfg.host p)))
  | locksCheck (t : T) (p : Purpose) (host : Host) (hp : s.places t = .lockCheck p host)
      (hfree : s.counting = none) :
      Steps cfg s ({ s with counting := some t }.move t (.check p host))
  | checks (t : T) (p : Purpose) (host : Host) (c : ℕ) (hp : s.places t = .check p host)
      (hc : s.counter host = some c) :
      Steps cfg s (s.move t (.unlockCheck p host (c < timeoutLimit)))
  | unlocksCheck (t : T) (p : Purpose) (host : Host) (passed : Bool)
      (hp : s.places t = .unlockCheck p host passed) :
      Steps cfg s ({ s with counting := none }.move t (p.next host passed))
  | removes (t : T) (fd : Fd) (hp : s.places t = .removing fd) :
      Steps cfg s ({ s with fdMap := s.fdMap.erase fd }.move t .outside)
  | forwards (t : T) (k : Kind) (host : Host) (hp : s.places t = .passed k host) :
      Steps cfg s (s.move t (.calling { kind := k, host := host }))
  | waits (t : T) (f f' : Frame) (s₁ : Process T) (hp : s.places t = .calling f)
      (hs : f.wait = some f') (he : Waited s t f f' s₁) : Steps cfg s (s₁.move t (.calling f'))
  | calls (t : T) (f f' : Frame) (s₁ : Process T) (hp : s.places t = .calling f)
      (hs : f.call = some f') (hh : f'.host = f.host) (hw : f'.waiter = f.waiter)
      (he : Called s t f f' s₁) : Steps cfg s (s₁.move t (.calling f'))
  | others (t : T) (f f' : Frame) (a : Act) (hp : s.places t = .calling f)
      (hs : f.step a = some f') (hh : f'.host = f.host)
      (hw : pending f'.waiter = pending f.waiter)
      (hc : ClientLocks.counts f'.waiter = ClientLocks.counts f.waiter)
      (hr : running f'.callback = running f.callback) : Steps cfg s (s.move t (.calling f'))
  | leaves (t : T) (f : Frame) (e : Bool) (ret : Option ℤ) (hp : s.places t = .calling f)
      (hw : f.waiter = .returned e ret) :
      Steps cfg s ({ s with progress := s.progress.leave t }.move t .outside)
  | resize : Steps cfg s { s with
      timeoutCounters :=
        TimeoutCounters.initializeTimeoutCounters s.timeoutCounters cfg.serverCount }

theorem waited (hs : f.wait = some f') (he : s.effect t f .waiter = some s₁) :
    Waited s t f f' s₁ := by
  cases hp : f.waiter with
  | lock =>
    simp only [Frame.wait, hp] at hs
    simp only [Process.effect, hp, Option.some.injEq] at he
    split at hs
    case isTrue =>
      cases hs
      subst he
      exact .moves (by rw [hp]; rfl) rfl (by rw [hp]; rfl)
    case isFalse => cases hs
  | test =>
    simp only [Frame.wait, hp] at hs
    simp only [Process.effect, hp, Option.some.injEq] at he
    subst he
    split at hs
    case isTrue =>
      cases hs
      exact .answers hp rfl
    case isFalse =>
      cases hs
      exact .moves (by rw [hp]; rfl) rfl (by rw [hp]; rfl)
  | asleep => simp [Frame.wait, hp] at hs
  | lockCounters =>
    simp only [Frame.wait, hp, Option.some.injEq] at hs
    simp only [Process.effect, hp] at he
    subst hs
    split at he
    case isTrue hfree =>
      cases he
      exact .locks hfree hp rfl
    case isFalse => cases he
  | count =>
    simp only [Frame.wait, hp, Option.some.injEq] at hs
    simp only [Process.effect, hp] at he
    subst hs
    obtain ⟨c, hc, rfl⟩ := Option.map_eq_some_iff.mp he
    exact .counts c hc hp rfl
  | unlockCounters =>
    simp only [Frame.wait, hp, Option.some.injEq] at hs
    simp only [Process.effect, hp, Option.some.injEq] at he
    subst hs he
    exact .unlocks hp rfl
  | take =>
    simp only [Frame.wait, hp, Option.some.injEq] at hs
    simp only [Process.effect, hp, Option.some.injEq] at he
    subst hs he
    exact .moves (by rw [hp]; rfl) rfl (by rw [hp]; rfl)
  | unlock e ret =>
    simp only [Frame.wait, hp, Option.some.injEq] at hs
    simp only [Process.effect, hp, Option.some.injEq] at he
    subst hs he
    exact .moves (by rw [hp]; rfl) rfl (by rw [hp]; rfl)
  | returned e ret => simp [Frame.wait, hp] at hs

theorem called (hs : f.call = some f') (he : s.effect t f .callback = some s₁) :
    Called s t f f' s₁ := by
  cases hp : f.callback with
  | awaiting => simp [Frame.call, hp] at hs
  | arrived r =>
    simp only [Process.effect, hp] at he
    split at he
    case isTrue hidle =>
      cases he
      exact .begins hidle (by rw [hp]; rfl)
    case isFalse => cases he
  | unlock =>
    simp only [Frame.call, hp, Option.some.injEq] at hs
    simp only [Process.effect, hp, Option.some.injEq] at he
    subst hs he
    exact .ends (by rw [hp]; rfl) rfl
  | finished => simp [Frame.call, hp] at hs
  | _ =>
    simp only [Process.effect, hp, Option.some.injEq] at he
    subst he
    exact .goes (by rw [hp]; rfl)

theorem call_kept (hs : f.call = some f') : f'.host = f.host ∧ f'.waiter = f.waiter := by
  cases hp : f.callback with
  | awaiting => simp [Frame.call, hp] at hs
  | arrived r =>
    simp only [Frame.call, hp, Frame.decode] at hs
    split at hs
    · cases hs
    · cases hs
      exact ⟨rfl, rfl⟩
    · split at hs <;> cases hs <;> exact ⟨rfl, rfl⟩
  | lock =>
    simp only [Frame.call, hp] at hs
    split at hs
    · cases hs
      exact ⟨rfl, rfl⟩
    · cases hs
  | finished => simp [Frame.call, hp] at hs
  | _ =>
    simp only [Frame.call, hp, Option.some.injEq] at hs
    subst hs
    exact ⟨rfl, rfl⟩

theorem call_steps {a : Act} (h : s.call t a = some s') : Steps cfg s s' := by
  simp only [Process.call] at h
  split at h
  case h_2 => cases h
  case h_1 f hp =>
    obtain ⟨f', hs, h⟩ := Option.bind_eq_some_iff.mp h
    obtain ⟨s₁, he, rfl⟩ := Option.map_eq_some_iff.mp h
    cases a with
    | waiter => exact .waits t f f' s₁ hp hs (waited hs he)
    | callback =>
      obtain ⟨hh, hw⟩ := call_kept hs
      exact .calls t f f' s₁ hp hs hh hw (called hs he)
    | wake e =>
      cases he
      obtain ⟨hasleep, -, hf⟩ := wake_spec hs
      refine .others t f f' (.wake e) hp hs (by rw [hf]) ?_ ?_ (by rw [hf])
      · rw [hf, hasleep]
        cases e <;> rfl
      · rw [hf, hasleep]
        cases e <;> rfl
    | deadline =>
      cases he
      cases hs
      exact .others t f _ .deadline hp rfl rfl rfl rfl rfl
    | arrive r =>
      cases he
      obtain ⟨hawaiting, hf⟩ := arrive_spec hs
      exact .others t f f' (.arrive r) hp hs (by rw [hf]) (by rw [hf]) (by rw [hf])
        (by rw [hf, hawaiting]; rfl)

theorem begin_steps {k : Call} (hp : s.places t = .outside) (h : s.begin cfg t k = some s') :
    Steps cfg s s' := by
  cases k with
  | openFile path flags fd =>
    cases h
    split
    case h_1 => exact .untracked
    case h_2 p ht => exact .opens t path flags fd p hp ht
  | read fd buf count =>
    cases h
    split
    case h_1 => exact .untracked
    case h_2 p ht => exact .reads t (.read fd buf count) p hp rfl ht
  | pread fd buf count offset =>
    cases h
    split
    case h_1 => exact .untracked
    case h_2 p ht => exact .reads t (.pread fd buf count offset) p hp rfl ht
  | lseek fd offset whence => cases h
  | close fd =>
    cases h
    split
    case h_1 => exact .untracked
    case h_2 p ht => exact .closes t fd p hp ht

theorem check_steps (h : s.check t = some s') : Steps cfg s s' := by
  simp only [Process.check] at h
  split at h
  case h_1 p host hp =>
    split at h
    case isTrue hfree =>
      cases h
      exact .locksCheck t p host hp hfree
    case isFalse => cases h
  case h_2 p host hp =>
    obtain ⟨c, hc, rfl⟩ := Option.map_eq_some_iff.mp h
    exact .checks t p host c hp hc
  case h_3 p host passed hp =>
    cases h
    exact .unlocksCheck t p host passed hp
  case h_4 fd hp =>
    cases h
    exact .removes t fd hp
  case h_5 => cases h

theorem leave_steps (h : s.leave t = some s') : Steps cfg s s' := by
  simp only [Process.leave] at h
  split at h
  case h_1 f hp =>
    split at h
    case h_1 e ret hw =>
      cases h
      exact .leaves t f e ret hp hw
    case h_2 => cases h
  case h_2 => cases h

theorem step_steps {l : Label T} (h : s.step cfg l = some s') : Steps cfg s s' := by
  cases l with
  | begin t k =>
    simp only [Process.step] at h
    split at h
    case isTrue hp => exact begin_steps hp h
    case isFalse => cases h
  | check t => exact check_steps h
  | forward t =>
    simp only [Process.step] at h
    split at h
    case h_1 k host hp =>
      cases h
      exact .forwards t k host hp
    case h_2 => cases h
  | call t a => exact call_steps h
  | leave t => exact leave_steps h
  | resize =>
    cases h
    exact .resize

end Steps

section Invariant

variable {T : Type} [DecidableEq T] {cfg : Config} {s s' : Process T}

def Place.host : Place → Option Host
  | .lockCheck _ host | .check _ host | .unlockCheck _ host _ | .passed _ host => some host
  | .calling f => some f.host
  | _ => none

def Place.Sound (p : Place) : Prop := ∀ f, p.frame = some f → f.Sound

def Place.Hosted (cfg : Config) (p : Place) : Prop :=
  ∀ host, p.host = some host → ∃ path, cfg.host path = host

/-- Who is at the counters holds `timeout_mutex`. -/
def Counted (counting : Option T) (places : T → Place) : Prop :=
  ∀ t, counting = some t ↔ (places t).counts = true

/-- Every callback that is running is the one of the progress thread. -/
def Attended (progress : Progress T) (places : T → Place) : Prop :=
  ∀ t f, (places t).frame = some f → running f.callback = true → progress = .callback t

/-- A thread comes to a counter only when the vector has its size. -/
def Ready (cfg : Config) (s : Process T) : Label T → Prop
  | .check _ => s.timeoutCounters.length = cfg.serverCount
  | _ => True

instance (cfg : Config) (s : Process T) : (l : Label T) → Decidable (Ready cfg s l)
  | .check _ => inferInstanceAs (Decidable (s.timeoutCounters.length = cfg.serverCount))
  | .begin _ _ => isTrue trivial
  | .forward _ => isTrue trivial
  | .call _ _ => isTrue trivial
  | .leave _ => isTrue trivial
  | .resize => isTrue trivial

/-- The vector has its size, or no thread has come to a counter. -/
def Begun (cfg : Config) (s : Process T) : Prop :=
  s.timeoutCounters.length = cfg.serverCount ∨
    ∀ t, s.places t = .outside ∨ ∃ p host, s.places t = .lockCheck p host

structure Inv (cfg : Config) (s : Process T) : Prop where
  frames : ∀ t, (s.places t).Sound
  hosts : ∀ t, (s.places t).Hosted cfg
  counted : Counted s.counting s.places
  attended : Attended s.progress s.places
  begun : Begun cfg s

variable {places : T → Place} {t : T} {p : Place}

theorem places_update {P : Place → Prop} (h : ∀ u, P (places u)) (hp : P p) (u : T) :
    P (Function.update places t p u) := by
  by_cases hu : u = t
  · subst hu
    simpa using hp
  · simpa [hu] using h u

namespace Counted

variable {counting : Option T}

theorem keep (h : Counted counting places) (hp : p.counts = (places t).counts) :
    Counted counting (Function.update places t p) := by
  intro u
  by_cases hu : u = t
  · subst hu
    simpa [hp] using h u
  · simpa [hu] using h u

theorem take (h : Counted none places) (hp : p.counts = true) :
    Counted (some t) (Function.update places t p) := by
  intro u
  by_cases hu : u = t
  · subst hu
    simp [hp]
  · simpa [hu, Ne.symm hu] using h u

theorem give (h : Counted counting places) (ht : (places t).counts = true)
    (hp : p.counts = false) : Counted none (Function.update places t p) := by
  have hcounting := (h t).mpr ht
  intro u
  by_cases hu : u = t
  · subst hu
    simp [hp]
  · have hother := h u
    rw [hcounting] at hother
    simpa [hu, Ne.symm hu] using hother

end Counted

namespace Attended

variable {progress : Progress T}

theorem keep (h : Attended progress places)
    (hp : ∀ f', p.frame = some f' → running f'.callback = true →
      ∃ f, (places t).frame = some f ∧ running f.callback = true) :
    Attended progress (Function.update places t p) := by
  intro u f hf hr
  by_cases hu : u = t
  · subst hu
    rw [Function.update_self] at hf
    obtain ⟨g, hg, hrg⟩ := hp f hf hr
    exact h u g hg hrg
  · rw [Function.update_of_ne hu] at hf
    exact h u f hf hr

theorem bare (h : Attended progress places) (hp : p.frame = none) :
    Attended progress (Function.update places t p) := by
  apply h.keep
  intro f hf
  rw [hp] at hf
  cases hf

theorem begin (h : Attended .idle places) :
    Attended (.callback t) (Function.update places t p) := by
  intro u f hf hr
  by_cases hu : u = t
  · rw [hu]
  · rw [Function.update_of_ne hu] at hf
    cases h u f hf hr

theorem finish (h : Attended progress places) {f f' : Frame} (hf : (places t).frame = some f)
    (hr : running f.callback = true) (hr' : running f'.callback = false) :
    Attended .idle (Function.update places t (.calling f')) := by
  have hprogress := h t f hf hr
  intro u g hg hrg
  by_cases hu : u = t
  · subst hu
    rw [Function.update_self] at hg
    obtain rfl : f' = g := Option.some.inj hg
    rw [hr'] at hrg
    cases hrg
  · rw [Function.update_of_ne hu] at hg
    have hother := h u g hg hrg
    rw [hprogress] at hother
    exact absurd (Progress.callback.inj hother).symm hu

theorem leave (h : Attended progress places) (hp : p.frame = none) :
    Attended (progress.leave t) (Function.update places t p) := by
  intro u f hf hr
  by_cases hu : u = t
  · subst hu
    rw [Function.update_self, hp] at hf
    cases hf
  · rw [Function.update_of_ne hu] at hf
    have hprogress := h u f hf hr
    rw [hprogress, Progress.leave, if_neg]
    exact fun he ↦ hu (Progress.callback.inj he)

end Attended

theorem next_frame (q : Purpose) (host : Host) (passed : Bool) :
    (q.next host passed).frame = none ∧ (q.next host passed).counts = false ∧
      ∀ h, (q.next host passed).host = some h → h = host := by
  cases q with
  | wait k => cases passed <;> simp [Purpose.next, Place.frame, Place.counts, Place.host, eq_comm]
  | close fd => simp [Purpose.next, Place.frame, Place.counts, Place.host]

theorem Place.Sound.of_bare (h : p.frame = none) : p.Sound := by
  intro f hf
  rw [h] at hf
  cases hf

theorem Steps.frames (h : Steps cfg s s') (hs : ∀ t, (s.places t).Sound) :
    ∀ t, (s'.places t).Sound := by
  have hframe {t : T} {f f' : Frame} {a : Act} (hp : s.places t = .calling f)
      (hstep : f.step a = some f') : (Place.calling f').Sound := by
    intro g hg
    obtain rfl : f' = g := Option.some.inj hg
    exact (hs t f (by rw [hp]; rfl)).step hstep
  cases h with
  | untracked => exact hs
  | unlocksCheck t q host passed hp =>
    exact places_update hs (.of_bare (next_frame q host passed).1)
  | forwards t k host hp =>
    refine places_update hs fun f hf ↦ ?_
    obtain rfl : _ = f := Option.some.inj hf
    exact start_sound (fun _ : Unit ↦ (k, host)) (fun _ ↦ 0) (fun _ ↦ none) ()
  | waits t f f' s₁ hp hstep he =>
    cases he <;> exact places_update hs (hframe (a := .waiter) hp hstep)
  | calls t f f' s₁ hp hstep hh hw he =>
    cases he <;> exact places_update hs (hframe (a := .callback) hp hstep)
  | others t f f' a hp hstep => exact places_update hs (hframe hp hstep)
  | resize => exact hs
  | _ => exact places_update hs (.of_bare rfl)

theorem Steps.hosts (h : Steps cfg s s') (hs : ∀ t, (s.places t).Hosted cfg) :
    ∀ t, (s'.places t).Hosted cfg := by
  have hhost (path : Path) (q : Purpose) : (Place.lockCheck q (cfg.host path)).Hosted cfg := by
    intro host he
    exact ⟨path, Option.some.inj he⟩
  have hkeep {t : T} {p : Place} (hp : p.host = (s.places t).host) : p.Hosted cfg := by
    intro host he
    exact hs t host (hp ▸ he)
  cases h with
  | untracked => exact hs
  | opens t path flags fd p => exact places_update hs (hhost p _)
  | reads t k p => exact places_update hs (hhost p _)
  | closes t fd p => exact places_update hs (hhost p _)
  | locksCheck t q host hp => exact places_update hs (hkeep (t := t) (by rw [hp]; rfl))
  | checks t q host c hp => exact places_update hs (hkeep (t := t) (by rw [hp]; rfl))
  | unlocksCheck t q host passed hp =>
    refine places_update hs fun h he ↦ ?_
    obtain rfl := (next_frame q host passed).2.2 h he
    exact hs t h (by rw [hp]; rfl)
  | removes t fd hp => exact places_update hs (by simp [Place.Hosted, Place.host])
  | forwards t k host hp => exact places_update hs (hkeep (t := t) (by rw [hp]; rfl))
  | waits t f f' s₁ hp hstep he =>
    have hp' : (Place.calling f').host = (s.places t).host := by
      rw [hp, (wait_spec hstep).frame]
      rfl
    cases he <;> exact places_update hs (hkeep hp')
  | calls t f f' s₁ hp hstep hh hw he =>
    have hp' : (Place.calling f').host = (s.places t).host := by
      rw [hp]
      exact congrArg some hh
    cases he <;> exact places_update hs (hkeep hp')
  | others t f f' a hp hstep hh =>
    exact places_update hs (hkeep (t := t) (by rw [hp]; exact congrArg some hh))
  | leaves t f e ret hp => exact places_update hs (by simp [Place.Hosted, Place.host])
  | resize => exact hs

theorem Steps.counted (h : Steps cfg s s') (hs : Counted s.counting s.places) :
    Counted s'.counting s'.places := by
  cases h with
  | untracked => exact hs
  | opens t path flags fd p hp => exact hs.keep (by rw [hp]; rfl)
  | reads t k p hp => exact hs.keep (by rw [hp]; rfl)
  | closes t fd p hp => exact hs.keep (by rw [hp]; rfl)
  | locksCheck t q host hp hfree =>
    rw [hfree] at hs
    exact hs.take rfl
  | checks t q host c hp => exact hs.keep (by rw [hp]; rfl)
  | unlocksCheck t q host passed hp =>
    exact hs.give (by rw [hp]; rfl) (next_frame q host passed).2.1
  | removes t fd hp => exact hs.keep (by rw [hp]; rfl)
  | forwards t k host hp => exact hs.keep (by rw [hp]; rfl)
  | waits t f f' s₁ hp hstep he =>
    cases he with
    | locks hfree hw hw' =>
      rw [hfree] at hs
      exact hs.take (by simp [Place.counts, counts, hw'])
    | counts c hc hw hw' => exact hs.keep (by simp [hp, Place.counts, counts, hw, hw'])
    | unlocks hw hw' =>
      exact hs.give (by simp [hp, Place.counts, counts, hw]) (by simp [Place.counts, counts, hw'])
    | answers hw hw' =>
      refine hs.keep ?_
      rw [hp]
      simp only [Place.counts, hw, hw', Frame.afterLoop]
      cases f.kind <;> rfl
    | moves hc hc' => exact hs.keep (by rw [hp]; exact hc'.trans hc.symm)
  | calls t f f' s₁ hp hstep hh hw he =>
    have hkeep : (Place.calling f').counts = (s.places t).counts := by
      rw [hp]
      exact congrArg counts hw
    cases he <;> exact hs.keep hkeep
  | others t f f' a hp hstep hh hw hc => exact hs.keep (by rw [hp]; exact hc)
  | leaves t f e ret hp hw => exact hs.keep (by simp [hp, Place.counts, counts, hw])
  | resize => exact hs

theorem Steps.attended (h : Steps cfg s s') (hs : Attended s.progress s.places) :
    Attended s'.progress s'.places := by
  have hkeep {t : T} {f f' : Frame} (hp : s.places t = .calling f)
      (hr : running f'.callback = true → running f.callback = true) :
      Attended s.progress (Function.update s.places t (.calling f')) := by
    refine hs.keep fun g hg hrg ↦ ⟨f, by rw [hp]; rfl, hr ?_⟩
    obtain rfl : f' = g := Option.some.inj hg
    exact hrg
  cases h with
  | untracked => exact hs
  | unlocksCheck t q host passed hp => exact hs.bare (next_frame q host passed).1
  | forwards t k host hp =>
    refine hs.keep fun f hf hr ↦ ?_
    obtain rfl : _ = f := Option.some.inj hf
    cases hr
  | waits t f f' s₁ hp hstep he =>
    have hr : running f'.callback = true → running f.callback = true := by
      rw [(wait_spec hstep).frame]
      exact id
    cases he <;> exact hkeep hp hr
  | calls t f f' s₁ hp hstep hh hw he =>
    cases he with
    | begins hidle hr =>
      rw [hidle] at hs
      exact hs.begin
    | goes hr => exact hkeep hp fun _ ↦ hr
    | ends hr hr' => exact hs.finish (by rw [hp]; rfl) hr hr'
  | others t f f' a hp hstep hh hw hc hr => exact hkeep hp (hr ▸ id)
  | leaves t f e ret hp hw => exact hs.leave rfl
  | resize => exact hs
  | _ => exact hs.bare rfl

theorem Steps.size (h : Steps cfg s s') (hs : s.timeoutCounters.length = cfg.serverCount) :
    s'.timeoutCounters.length = cfg.serverCount := by
  cases h with
  | waits t f f' s₁ hp hstep he =>
    cases he with
    | counts c hc hw hw' => exact (List.length_set ..).trans hs
    | _ => exact hs
  | calls t f f' s₁ hp hstep hh hw he => cases he <;> exact hs
  | resize => exact (congrArg List.length (TimeoutCounters.resize_same hs)).trans hs
  | _ => exact hs

theorem begin_begun {k : Call}
    (h : ∀ t, s.places t = .outside ∨ ∃ p host, s.places t = .lockCheck p host)
    (hs : s.begin cfg t k = some s') :
    ∀ t, s'.places t = .outside ∨ ∃ p host, s'.places t = .lockCheck p host := by
  have hmove (p : Purpose) (host : Host) (u : T) :
      Function.update s.places t (.lockCheck p host) u = .outside ∨
        ∃ p' host', Function.update s.places t (.lockCheck p host) u = .lockCheck p' host' :=
    places_update (P := fun q ↦ q = .outside ∨ ∃ p host, q = .lockCheck p host) h
      (.inr ⟨p, host, rfl⟩) u
  cases k with
  | openFile path flags fd =>
    cases hs
    split
    · exact h
    · exact hmove _ _
  | lseek fd offset whence => cases hs
  | read fd buf count =>
    cases hs
    split
    · exact h
    · exact hmove _ _
  | pread fd buf count offset =>
    cases hs
    split
    · exact h
    · exact hmove _ _
  | close fd =>
    cases hs
    split
    · exact h
    · exact hmove _ _

theorem step_begun {l : Label T} (h : Begun cfg s) (hl : Ready cfg s l)
    (hs : s.step cfg l = some s') : Begun cfg s' := by
  rcases h with hsize | hplaces
  · exact .inl ((step_steps hs).size hsize)
  · cases l with
    | begin t k =>
      simp only [Process.step] at hs
      split at hs
      · exact .inr (begin_begun hplaces hs)
      · cases hs
    | check t => exact .inl ((step_steps hs).size hl)
    | resize =>
      cases hs
      left
      simp [TimeoutCounters.initializeTimeoutCounters]
      omega
    | forward t =>
      rcases hplaces t with hp | ⟨p, host, hp⟩
      · simp [Process.step, hp] at hs
      · simp [Process.step, hp] at hs
    | call t a =>
      rcases hplaces t with hp | ⟨p, host, hp⟩
      · simp [Process.step, Process.call, hp] at hs
      · simp [Process.step, Process.call, hp] at hs
    | leave t =>
      rcases hplaces t with hp | ⟨p, host, hp⟩
      · simp [Process.step, Process.leave, hp] at hs
      · simp [Process.step, Process.leave, hp] at hs

omit [DecidableEq T] in
theorem inv_start (cfg : Config) : Inv cfg (start T) where
  frames _ := .of_bare rfl
  hosts _ := by simp [Place.Hosted, start, Place.host]
  counted t := by simp [start, Place.counts]
  attended t f hf := by cases hf
  begun := .inr fun _ ↦ .inl rfl

theorem reach_inv (h : Reach (Process.step cfg) (Ready cfg) (start T) s) : Inv cfg s := by
  apply h.invariant (Inv cfg) (inv_start cfg)
  intro b l c hb hl hc
  have hsteps := step_steps hc
  exact ⟨hsteps.frames hb.frames, hsteps.hosts hb.hosts, hsteps.counted hb.counted,
    hsteps.attended hb.attended, step_begun hb.begun hl hc⟩

end Invariant

section Unblocking

variable {T : Type} {cfg : Config} {s s' : Process T} {t : T} {f : Frame}

theorem Place.timeout_mem_taken {p : Place} : .timeout ∈ p.taken t ↔ p.counts = true := by
  simp [Place.taken]

theorem Place.call_mem_taken {p : Place} {u : T} :
    .call u ∈ p.taken t ↔ u = t ∧ ∃ f, p.frame = some f ∧ f.waiter.inside = true := by
  simp [Place.taken, Option.any_eq_true, and_comm]

theorem Inv.client_sound (h : Inv cfg s) (t : T) (m : Mutex T) :
    m ∈ s.view.taken (.client t) ↔ s.view.holder m = some (.client t) := by
  cases m with
  | timeout =>
    refine Place.timeout_mem_taken.trans ((h.counted t).symm.trans ?_)
    simp [Process.view, Process.holder]
  | call u =>
    have hinside {f : Frame} (hf : (s.places u).frame = some f) :=
      Frame.inside_iff (h.frames u f hf).locked .waiter
    refine Place.call_mem_taken.trans ?_
    simp only [Process.view, Process.holder, Option.map_eq_some_iff, Option.bind_eq_some_iff]
    constructor
    · rintro ⟨rfl, f, hf, hin⟩
      exact ⟨.waiter, ⟨f, hf, (hinside hf).mp hin⟩, rfl⟩
    · rintro ⟨q, ⟨f, hf, hq⟩, hparty⟩
      cases q with
      | waiter =>
        obtain rfl : u = t := Thread.client.inj hparty
        exact ⟨rfl, f, hf, (hinside hf).mpr hq⟩
      | callback => cases hparty

theorem Inv.progress_sound (h : Inv cfg s) (m : Mutex T) :
    m ∈ s.view.taken .progress ↔ s.view.holder m = some .progress := by
  cases m with
  | timeout =>
    simp only [Process.view, Process.taken, Process.holder]
    cases s.progress <;> simp
  | call u =>
    have hinside {f : Frame} (hf : (s.places u).frame = some f) :=
      Frame.inside_iff (h.frames u f hf).locked .callback
    simp only [Process.view, Process.holder, Option.map_eq_some_iff, Option.bind_eq_some_iff]
    constructor
    · intro hmem
      simp only [Process.taken] at hmem
      split at hmem
      case h_1 t hprogress =>
        split at hmem
        case isTrue hany =>
          obtain rfl : u = t := by simpa using hmem
          obtain ⟨f, hf, hin⟩ := (Option.any_eq_true _ _).mp hany
          exact ⟨.callback, ⟨f, hf, (hinside hf).mp hin⟩, rfl⟩
        case isFalse => cases hmem
      case h_2 => cases hmem
    · rintro ⟨q, ⟨f, hf, hq⟩, hparty⟩
      cases q with
      | waiter => cases hparty
      | callback =>
        have hin : f.callback.inside = true := (hinside hf).mpr hq
        have hrunning : running f.callback = true := by
          revert hin
          cases f.callback <;> simp [TimedWaits.Callback.inside, running]
        simp [Process.taken, h.attended u f hf hrunning, hf, hin]

theorem Inv.sound (h : Inv cfg s) : s.view.Sound
  | .client t, m => h.client_sound t m
  | .progress, m => h.progress_sound m

def rank : Mutex T → ℕ
  | .call _ => 0
  | .timeout => 1

/-- A call takes `timeout_mutex` inside its own mutex, and no mutex inside `timeout_mutex`. -/
theorem ordered (s : Process T) : s.view.Ordered rank := by
  intro p m hw k hk
  cases p with
  | client t =>
    change (s.places t).wanted t = some m at hw
    change k ∈ (s.places t).taken t at hk
    cases hp : s.places t with
    | calling f =>
      rw [hp] at hw hk
      cases hwaiter : f.waiter <;>
        simp [Place.wanted, Place.taken, Place.frame, Place.counts, counts, hwaiter,
          Waiter.inside] at hw hk
      subst hw hk
      exact Nat.zero_lt_one
    | lockCheck q host => simp [hp, Place.taken, Place.frame, Place.counts] at hk
    | _ => simp [hp, Place.wanted] at hw
  | progress =>
    change s.wanted .progress = some m at hw
    change k ∈ s.taken .progress at hk
    simp only [Process.wanted, Process.taken] at hw hk
    cases hprogress : s.progress with
    | callback t =>
      cases hf : (s.places t).frame with
      | none => simp [hprogress, hf] at hw
      | some f =>
        cases hc : f.callback <;>
          simp [hprogress, hf, hc, TimedWaits.Callback.inside] at hw hk
    | _ => simp [hprogress] at hw

theorem Inv.counter (h : Inv cfg s) (hpos : 0 < cfg.serverCount) (hmax : cfg.serverCount < 2 ^ 31)
    {host : Host} (hhost : (s.places t).host = some host)
    (hpast : ∀ p host', s.places t ≠ .lockCheck p host') : ∃ c, s.counter host = some c := by
  have hsize : s.timeoutCounters.length = cfg.serverCount := by
    refine h.begun.resolve_right fun hplaces ↦ ?_
    rcases hplaces t with hp | ⟨p, host', hp⟩
    · simp [hp, Place.host] at hhost
    · exact hpast p host' hp
  obtain ⟨path, rfl⟩ := h.hosts t host hhost
  obtain ⟨hlow, hhigh⟩ := Words.int32_mod_range (cfg.hash path) hpos hmax
  refine ⟨_, (if_pos hlow).trans (List.getElem?_eq_getElem ?_)⟩
  rw [hsize]
  exact hhigh

variable [DecidableEq T]

/-- A thread can take a step. -/
def Process.Moves (cfg : Config) (s : Process T) (p : Thread T) : Prop :=
  ∃ l s', l.thread = some p ∧ s.step cfg l = some s'

/-- Inside its mutex, a wait stops only for `timeout_mutex`. -/
theorem wait_moves (hp : s.places t = .calling f) (hin : f.waiter.inside = true)
    (hcounter : ∃ c, s.counter f.host = some c)
    (hfree : f.waiter = .lockCounters → s.counting = none) : s.Moves cfg (.client t) := by
  have hwait : ∃ f', f.wait = some f' := by
    apply Option.isSome_iff_exists.mp
    cases hw : f.waiter with
    | test => cases hd : f.cell.done <;> simp [Frame.wait, hw, hd]
    | _ => simp_all [Frame.wait, Waiter.inside]
  have heffect : ∃ s₁, s.effect t f .waiter = some s₁ := by
    apply Option.isSome_iff_exists.mp
    cases hw : f.waiter with
    | lockCounters => simp [Process.effect, hw, hfree hw]
    | count =>
      obtain ⟨c, hc⟩ := hcounter
      simp [Process.effect, hw, hc]
    | _ => simp [Process.effect, hw]
  obtain ⟨f', hs⟩ := hwait
  obtain ⟨s₁, he⟩ := heffect
  refine ⟨.call t .waiter, s₁.move t (.calling f'), rfl, ?_⟩
  simp [Process.step, Process.call, hp, Frame.step, hs, he]

theorem callback_moves (hp : s.places t = .calling f) (hin : f.callback.inside = true) :
    s.Moves cfg .progress := by
  have hmoves {f' : Frame} {s₁ : Process T} (hs : f.call = some f')
      (he : s.effect t f .callback = some s₁) : s.Moves cfg .progress := by
    refine ⟨.call t .callback, s₁.move t (.calling f'), rfl, ?_⟩
    simp [Process.step, Process.call, hp, Frame.step, hs, he]
  cases hc : f.callback with
  | set => exact hmoves (by rw [Frame.call, hc]) (by rw [Process.effect, hc])
  | signal => exact hmoves (by rw [Frame.call, hc]) (by rw [Process.effect, hc])
  | unlock => exact hmoves (by rw [Frame.call, hc]) (by rw [Process.effect, hc])
  | _ => simp [hc, TimedWaits.Callback.inside] at hin

theorem Inv.caller_moves (h : Inv cfg s) (hpos : 0 < cfg.serverCount)
    (hmax : cfg.serverCount < 2 ^ 31) {t : T} {f : Frame} (hp : s.places t = .calling f)
    (hin : f.waiter.inside = true) (hfree : ∀ q, ¬s.view.Blocks (.client t) q) :
    s.Moves cfg (.client t) := by
  refine wait_moves hp hin
    (h.counter hpos hmax (t := t) (by rw [hp]; rfl) (by simp [hp])) fun hw ↦ ?_
  by_contra hheld
  obtain ⟨u, hu⟩ := Option.ne_none_iff_exists'.mp hheld
  refine hfree (.client u) ⟨.timeout, ?_, ?_⟩
  · simp [Process.view, Process.wanted, hp, Place.wanted, hw]
  · simp [Process.view, Process.holder, hu]

theorem Inv.client_moves (h : Inv cfg s) (hpos : 0 < cfg.serverCount)
    (hmax : cfg.serverCount < 2 ^ 31) {t : T} {m : Mutex T} (hmem : m ∈ s.view.taken (.client t))
    (hfree : ∀ q, ¬s.view.Blocks (.client t) q) : s.Moves cfg (.client t) := by
  cases m with
  | timeout =>
    have hcounts := Place.timeout_mem_taken.mp hmem
    cases hp : s.places t with
    | check q host =>
      obtain ⟨c, hc⟩ := h.counter hpos hmax (show (s.places t).host = some host by rw [hp]; rfl)
        (by simp [hp])
      exact ⟨.check t, _, rfl, by simp only [Process.step, Process.check, hp, hc]; rfl⟩
    | unlockCheck q host passed =>
      exact ⟨.check t, _, rfl, by simp only [Process.step, Process.check, hp]; rfl⟩
    | calling f =>
      rw [hp] at hcounts
      refine h.caller_moves hpos hmax hp ?_ hfree
      revert hcounts
      cases hw : f.waiter <;> simp [Place.counts, counts, hw, Waiter.inside]
    | _ => simp [hp, Place.counts] at hcounts
  | call u =>
    obtain ⟨rfl, f, hf, hin⟩ := Place.call_mem_taken.mp hmem
    cases hp : s.places u with
    | calling g =>
      rw [hp] at hf
      obtain rfl : g = f := Option.some.inj hf
      exact h.caller_moves hpos hmax hp hin hfree
    | _ => simp [hp, Place.frame] at hf

theorem progress_moves {m : Mutex T} (hmem : m ∈ s.taken .progress) : s.Moves cfg .progress := by
  simp only [Process.taken] at hmem
  split at hmem
  case h_1 t hprogress =>
    split at hmem
    case isTrue hany =>
      obtain ⟨f, hf, hin⟩ := (Option.any_eq_true _ _).mp hany
      cases hp : s.places t with
      | calling g =>
        rw [hp] at hf
        obtain rfl : g = f := Option.some.inj hf
        exact callback_moves hp hin
      | _ => simp [hp, Place.frame] at hf
    case isFalse => cases hmem
  case h_2 => cases hmem

/-- Who holds a mutex and waits for no other thread can take a step. -/
theorem Inv.moves (h : Inv cfg s) (hpos : 0 < cfg.serverCount) (hmax : cfg.serverCount < 2 ^ 31)
    {p : Thread T} {m : Mutex T} (hm : s.view.holder m = some p)
    (hfree : ∀ q, ¬s.view.Blocks p q) : s.Moves cfg p := by
  have hmem : m ∈ s.view.taken p := (h.sound p m).mpr hm
  cases p with
  | client t => exact h.client_moves hpos hmax hmem hfree
  | progress => exact progress_moves hmem

/-- Whatever the order of their steps, the threads of a client never wait for each other in a
circle: behind every wait for a mutex there is a thread that can take a step, when no thread
comes to the counters before the vector has its size. -/
theorem no_deadlock (cfg : Config) (hpos : 0 < cfg.serverCount) (hmax : cfg.serverCount < 2 ^ 31)
    (s : Process T) (h : Reach (Process.step cfg) (Ready cfg) (start T) s) :
    (∀ p, ¬Relation.TransGen s.view.Blocks p p) ∧
    ∀ p q, s.view.Blocks p q → ∃ w, Relation.TransGen s.view.Blocks p w ∧ s.Moves cfg w := by
  have hi := reach_inv h
  have hrank : ∀ m : Mutex T, rank m ≤ 1 := by
    intro m
    cases m <;> simp [rank]
  exact ⟨(ordered s).no_circle hi.sound, fun p q hb ↦
    (ordered s).unblocks hrank hi.sound (fun p m hm hfree ↦ hi.moves hpos hmax hm hfree) hb⟩

/-- The progress thread waits for a call that has timed out, which waits for a call that reads
the counters. -/
theorem no_deadlock_chain : ∃ s : Process (Fin 2),
    s.view.Blocks .progress (.client 0) ∧ s.view.Blocks (.client 0) (.client 1) ∧
      ∃ w, Relation.TransGen s.view.Blocks .progress w ∧ s.Moves sampleConfig w := by
  obtain ⟨s, hreach, hprogress, hcall, hwanted, htimeout⟩ : ∃ s : Process (Fin 2),
      Reach (Process.step sampleConfig) (Ready sampleConfig) (start (Fin 2)) s ∧
      s.wanted .progress = some (.call 0) ∧ s.holder (.call 0) = some (.client 0) ∧
      s.wanted (.client 0) = some .timeout ∧ s.holder .timeout = some (.client 1) :=
    Reach.exists_of_exec
      [.begin 0 (.openFile samplePath oRdonly 3), .resize, .check 0, .check 0, .check 0,
        .forward 0, .call 0 .waiter, .call 0 .waiter, .call 0 .deadline,
        .call 0 (.arrive (.output 4)), .call 0 (.wake true), .call 0 .callback,
        .begin 1 (.read 3 64 4), .check 1]
      (by decide +kernel) (by decide +kernel)
  have hb : s.view.Blocks .progress (.client 0) := ⟨.call 0, hprogress, hcall⟩
  exact ⟨s, hb, ⟨.timeout, hwanted, htimeout⟩,
    (no_deadlock sampleConfig (by decide) (by decide) s hreach).2 _ _ hb⟩

end Unblocking

section Atomic

variable {T : Type} [DecidableEq T] {cfg : Config} {s s' : Process T}

/-- Where a thread stands when the check and the increment are one step each. -/
def Place.atomic : Place → TimeoutCounters.Place
  | .lockCheck (.wait _) host | .check (.wait _) host => .placed host
  | .unlockCheck (.wait _) host b => if b then .passed host else .outside
  | .passed _ host => .passed host
  | .calling f => if pending f.waiter then .waiting f.host else .outside
  | _ => .outside

/-- The atomic process does not forget a file that has been closed. -/
structure Atomic (s : Process T) (a : TimeoutCounters.Process T) : Prop where
  fdMap : ∀ fd p, s.fdMap fd = some p → a.fdMap fd = some p
  counters : a.timeoutCounters = s.timeoutCounters
  places : ∀ t, a.places t = (s.places t).atomic

variable {a : TimeoutCounters.Process T} {t : T} {p : Place}

omit [DecidableEq T] in
theorem Atomic.counter (h : Atomic s a) (host : Host) : a.counter host = s.counter host := by
  rw [TimeoutCounters.Process.counter, h.counters]
  rfl

/-- A step that does not show. -/
theorem Atomic.stay (h : Atomic s a) (hs : s'.places = Function.update s.places t p)
    (hp : p.atomic = (s.places t).atomic) (hm : ∀ fd q, s'.fdMap fd = some q → s.fdMap fd = some q)
    (hc : s'.timeoutCounters = s.timeoutCounters) : Atomic s' a := by
  refine ⟨fun fd q hq ↦ h.fdMap fd q (hm fd q hq), h.counters.trans hc.symm, fun u ↦ ?_⟩
  rw [hs, h.places u]
  by_cases hu : u = t
  · subst hu
    simpa using hp.symm
  · simp [hu]

theorem Atomic.move (h : Atomic s a) (hs : s'.places = Function.update s.places t p)
    {m : PMap Fd Path} (hm : ∀ fd q, s'.fdMap fd = some q → m fd = some q) :
    Atomic s' ({ a with fdMap := m, timeoutCounters := s'.timeoutCounters }.move t p.atomic) := by
  refine ⟨hm, rfl, fun u ↦ ?_⟩
  rw [hs]
  by_cases hu : u = t
  · subst hu
    simp [TimeoutCounters.Process.move]
  · simp [TimeoutCounters.Process.move, hu, h.places u]

theorem Waited.atomic (h : Atomic s a) {f f' : Frame} {s₁ : Process T}
    (hp : s.places t = .calling f) (hs : f.wait = some f') (he : Waited s t f f' s₁) :
    Atomic (s₁.move t (.calling f')) a ∨
      ∃ l b, a.step cfg l = some b ∧ Atomic (s₁.move t (.calling f')) b := by
  have hhost : f'.host = f.host := by rw [(wait_spec hs).frame]
  have hplace (hpending : pending f.waiter = true) : a.places t = .waiting f.host := by
    simp [h.places t, hp, Place.atomic, hpending]
  have hstay (hpending : pending f'.waiter = pending f.waiter) :
      (Place.calling f').atomic = (s.places t).atomic := by
    simp only [hp, Place.atomic, hpending, hhost]
  cases he with
  | locks hfree hw hw' => exact .inl (h.stay rfl (hstay (by rw [hw, hw']; rfl)) (fun _ _ ↦ id) rfl)
  | counts c hc hw hw' =>
    right
    refine ⟨.timeOut t, _, ?_, h.move rfl (fun fd q hq ↦ h.fdMap fd q hq)⟩
    simp only [TimeoutCounters.Process.step, hplace (by rw [hw]; rfl),
      TimeoutCounters.Process.timeOut, h.counter, hc, Option.map_some]
    simp [Process.move, Place.atomic, hw', pending, h.counters]
  | unlocks hw hw' => exact .inl (h.stay rfl (hstay (by rw [hw, hw']; rfl)) (fun _ _ ↦ id) rfl)
  | answers hw hw' =>
    right
    refine ⟨.wake t, _, ?_, h.move rfl (fun fd q hq ↦ h.fdMap fd q hq)⟩
    simp only [TimeoutCounters.Process.step, hplace (by rw [hw]; rfl)]
    have hdone : pending f'.waiter = false := by
      rw [hw', Frame.afterLoop]
      cases f.kind <;> rfl
    simp [Process.move, Place.atomic, hdone, ← h.counters]
  | moves hc hc' hpending => exact .inl (h.stay rfl (hstay hpending) (fun _ _ ↦ id) rfl)

/-- One step of the threads is one step of the atomic process, or none. -/
theorem Steps.atomic (hs : Steps cfg s s') (h : Atomic s a) :
    Atomic s' a ∨ ∃ l b, a.step cfg l = some b ∧ Atomic s' b := by
  have hplace (t : T) := h.places t
  cases hs with
  | untracked => exact .inl h
  | opens t path flags fd p hp ht =>
    right
    refine ⟨.begin t (.openFile path flags fd), _, ?_,
      h.move (m := a.fdMap.insert fd p) rfl fun fd' q hq ↦ ?_⟩
    · simp [TimeoutCounters.Process.step, TimeoutCounters.Process.begin, hplace, hp, Place.atomic,
        ht, Process.move, ← h.counters]
    · simp only [Process.move, PMap.insert_apply] at hq ⊢
      split
      case isTrue he => rwa [if_pos he] at hq
      case isFalse he =>
        rw [if_neg he] at hq
        exact h.fdMap fd' q hq
  | reads t k p hp hk ht =>
    right
    have hfd := h.fdMap k.fd p ht
    refine ⟨.begin t k, _, ?_, h.move (m := a.fdMap) rfl fun fd' q hq ↦ h.fdMap fd' q hq⟩
    cases k with
    | read fd buf count =>
      simp only [Call.fd] at hfd
      simp [TimeoutCounters.Process.step, TimeoutCounters.Process.begin, hplace, hp, Place.atomic,
        hfd, Process.move, ← h.counters]
    | pread fd buf count offset =>
      simp only [Call.fd] at hfd
      simp [TimeoutCounters.Process.step, TimeoutCounters.Process.begin, hplace, hp, Place.atomic,
        hfd, Process.move, ← h.counters]
    | _ => simp [Call.transfer] at hk
  | closes t fd p hp ht => exact .inl (h.stay rfl (by rw [hp]; rfl) (fun _ _ ↦ id) rfl)
  | locksCheck t q host hp hfree =>
    refine .inl (h.stay rfl ?_ (fun _ _ ↦ id) rfl)
    rw [hp]
    cases q <;> rfl
  | checks t q host c hp hc =>
    cases q with
    | wait k =>
      right
      refine ⟨.check t, _, ?_, h.move (m := a.fdMap) rfl fun fd q hq ↦ h.fdMap fd q hq⟩
      by_cases hlimit : timeoutLimit ≤ c
      · simp [TimeoutCounters.Process.step, hplace, hp, Place.atomic,
          TimeoutCounters.Process.check, h.counter, hc, hlimit, Process.move, ← h.counters,
          Nat.not_lt.mpr hlimit]
      · simp [TimeoutCounters.Process.step, hplace, hp, Place.atomic,
          TimeoutCounters.Process.check, h.counter, hc, hlimit, Process.move, ← h.counters,
          Nat.not_le.mp hlimit]
    | close fd => exact .inl (h.stay rfl (by rw [hp]; rfl) (fun _ _ ↦ id) rfl)
  | unlocksCheck t q host passed hp =>
    refine .inl (h.stay rfl ?_ (fun _ _ ↦ id) rfl)
    rw [hp]
    cases q with
    | wait k => cases passed <;> rfl
    | close fd => rfl
  | removes t fd hp =>
    refine .inl (h.stay rfl (by rw [hp]; rfl) (fun fd' q hq ↦ ?_) rfl)
    simp only [Process.move, PMap.erase_apply] at hq
    split at hq
    · cases hq
    · exact hq
  | forwards t k host hp =>
    right
    refine ⟨.forward t, _, ?_, h.move (m := a.fdMap) rfl fun fd q hq ↦ h.fdMap fd q hq⟩
    simp [TimeoutCounters.Process.step, hplace, hp, Place.atomic, pending, Process.move,
      ← h.counters]
  | waits t f f' s₁ hp hstep he => exact he.atomic h hp hstep
  | calls t f f' s₁ hp hstep hh hw he =>
    have hp' : (Place.calling f').atomic = (s.places t).atomic := by
      simp only [hp, Place.atomic, hw, hh]
    cases he <;> exact .inl (h.stay rfl hp' (fun _ _ ↦ id) rfl)
  | others t f f' act hp hstep hh hw =>
    have hp' : (Place.calling f').atomic = (s.places t).atomic := by
      simp only [hp, Place.atomic, hw, hh]
    exact .inl (h.stay rfl hp' (fun _ _ ↦ id) rfl)
  | leaves t f e ret hp hw =>
    exact .inl (h.stay rfl (by simp [hp, Place.atomic, hw, pending]) (fun _ _ ↦ id) rfl)
  | resize =>
    refine .inr ⟨.resize, _, rfl, h.fdMap, ?_, hplace⟩
    exact congrArg (TimeoutCounters.initializeTimeoutCounters · cfg.serverCount) h.counters

omit [DecidableEq T] in
theorem atomic_start : Atomic (start T) (TimeoutCounters.start T) where
  fdMap _ _ hq := by cases hq
  counters := rfl
  places _ := rfl

/-- The threads behave as if the check of a counter and its increment were one step each,
and a counter passes its limit by less than their number. -/
theorem locks_refine [Fintype T] (cfg : Config) (s : Process T)
    (h : Reach (Process.step cfg) (fun _ _ ↦ True) (start T) s) :
    (∃ a, Reach (TimeoutCounters.Process.step cfg) (fun _ _ ↦ True)
        (TimeoutCounters.start T) a ∧
      a.timeoutCounters = s.timeoutCounters ∧ ∀ t, a.places t = (s.places t).atomic) ∧
    ∀ host c, s.counter host = some c → c ≤ timeoutLimit - 1 + Fintype.card T := by
  obtain ⟨a, ha, hatomic⟩ := h.simulates (R := Atomic) atomic_start
    fun b l c y _ hy hstep ↦ (step_steps hstep).atomic hy
  refine ⟨⟨a, ha, hatomic.counters, hatomic.places⟩, fun host c hc ↦ ?_⟩
  have hroom := (TimeoutCounters.reach_bounded ha (TimeoutCounters.start_bounded cfg)).room host c
    ((hatomic.counter host).trans hc)
  omega

/-- A call that has timed out has counted, and the other one is about to wait. -/
theorem locks_refine_counted : ∃ s : Process (Fin 2),
    s.counter 0 = some 1 ∧ s.counting = some 0 ∧ s.places 1 = .passed .read 0 ∧
      ∃ a, Reach (TimeoutCounters.Process.step sampleConfig) (fun _ _ ↦ True)
          (TimeoutCounters.start (Fin 2)) a ∧
        a.timeoutCounters = s.timeoutCounters ∧ ∀ t, a.places t = (s.places t).atomic := by
  obtain ⟨s, hreach, hcounter, hcounting, hplace⟩ : ∃ s : Process (Fin 2),
      Reach (Process.step sampleConfig) (fun _ _ ↦ True) (start (Fin 2)) s ∧
      s.counter 0 = some 1 ∧ s.counting = some 0 ∧ s.places 1 = .passed .read 0 :=
    Reach.exists_of_exec
      [.begin 0 (.openFile samplePath oRdonly 3), .resize, .check 0, .check 0, .check 0,
        .forward 0, .call 0 .waiter, .call 0 .waiter, .call 0 .deadline, .begin 1 (.read 3 64 4),
        .check 1, .check 1, .call 0 (.wake true), .check 1, .call 0 .waiter, .call 0 .waiter]
      (by decide +kernel) (by decide +kernel)
  exact ⟨s, hcounter, hcounting, hplace, (locks_refine sampleConfig s hreach).1⟩

end Atomic

end FTCache.ClientLocks
