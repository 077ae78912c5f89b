import FTCache.Library.Locks
import FTCache.Library.Runs
import FTCache.RemoteCalls

namespace FTCache.TimedWaits

open Runs Locks Client

/-- The calls that block on a reply: `ftc_client_block` in an open, `ftc_read_block` in a read. -/
inductive Kind
  | openFile (localFd : Fd)
  | read
  deriving DecidableEq

inductive Party
  | waiter
  | callback
  deriving DecidableEq

/-- Where a call stands in its wait. `expired` marks the way out of the loop for `ETIMEDOUT`. -/
inductive Waiter
  | lock
  | test
  | asleep
  | lockCounters
  | count
  | unlockCounters
  | take
  | unlock (expired : Bool) (ret : Option ℤ)
  | returned (expired : Bool) (ret : Option ℤ)
  deriving DecidableEq

/-- Where the completion callback stands. -/
inductive Callback
  | awaiting
  | arrived (r : Completion)
  | lock
  | set
  | signal
  | unlock
  | finished
  deriving DecidableEq

/-- A call with its frame. `late` says that its deadline has passed; `reply`, a history variable,
is what has arrived. -/
structure Frame where
  kind : Kind
  host : Host
  waiter : Waiter := .lock
  callback : Callback := .awaiting
  cell : Cell := {}
  holder : Option Party := none
  late : Bool := false
  reply : Option Completion := none
  deriving DecidableEq

/-- `wake` is the return of `pthread_cond_timedwait`, with the mutex re-acquired. -/
inductive Act
  | waiter
  | wake (expired : Bool)
  | deadline
  | arrive (r : Completion)
  | callback
  deriving DecidableEq

namespace Frame

variable (f : Frame)

/-- The value for a reply that did not come in time; an open has none. -/
def noReply : Option ℤ :=
  match f.kind with
  | .openFile _ => none
  | .read => some (-1)

def afterLoop : Waiter :=
  match f.kind with
  | .openFile _ => .unlock false none
  | .read => .take

/-- A step of `ftc_client_block` or `ftc_read_block`, up to what it does to the counters. -/
def wait : Option Frame :=
  match f.waiter with
  | .lock =>
    if f.holder = none then some { f with waiter := .test, holder := some .waiter } else none
  | .test =>
    if f.cell.done then some { f with waiter := f.afterLoop }
    else some { f with waiter := .asleep, holder := none }
  | .asleep => none
  | .lockCounters => some { f with waiter := .count }
  | .count => some { f with waiter := .unlockCounters }
  | .unlockCounters => some { f with waiter := .unlock true f.noReply }
  | .take => some { f with waiter := .unlock false (some f.cell.bytesRead) }
  | .unlock e ret => some { f with waiter := .returned e ret, holder := none }
  | .returned _ _ => none

/-- `pthread_cond_timedwait` returns for any reason or none, for the deadline only after it.
The loop does not look at `*done` again after `ETIMEDOUT`. -/
def wake (expired : Bool) : Option Frame :=
  if f.waiter = .asleep ∧ f.holder = none ∧ (expired → f.late) then
    some { f with waiter := if expired then .lockCounters else .test, holder := some .waiter }
  else none

/-- What a callback makes of the reply, before it takes the mutex. -/
def decode : Completion → Option Frame
  -- assert(info->ret == HG_SUCCESS)
  | .failed => none
  | .undecodable _ => some { f with callback := .lock }
  | .output out =>
    match f.kind with
    | .openFile _ => some { f with callback := .lock }
    | .read => some { f with callback := .lock, cell := { f.cell with bytesRead := out } }

/-- A step of `ftc_open_cb` or `ftc_read_cb`. The signal wakes a call that `wake` lets wake
anyway. -/
def call : Option Frame :=
  match f.callback with
  | .awaiting => none
  | .arrived r => f.decode r
  | .lock =>
    if f.holder = none then some { f with callback := .set, holder := some .callback } else none
  | .set => some { f with callback := .signal, cell := { f.cell with done := true } }
  | .signal => some { f with callback := .unlock }
  | .unlock => some { f with callback := .finished, holder := none }
  | .finished => none

def step : Act → Option Frame
  | .waiter => f.wait
  | .wake e => f.wake e
  | .deadline => some { f with late := true }
  | .arrive r =>
    if f.callback = .awaiting then some { f with callback := .arrived r, reply := some r } else none
  | .callback => f.call

end Frame

/-- The calls in progress in a process and what they share. `counting` holds `timeout_mutex`. -/
structure Process (T : Type) where
  calls : T → Frame
  counters : Host → ℕ
  counting : Option T
  fdRedirMap : PMap Fd Fd

structure Label (T : Type) where
  call : T
  act : Act
  deriving DecidableEq

namespace Process

variable {T : Type} [DecidableEq T] (s : Process T)

/-- `fd_redir_map[local_fd] = out.ret_status`, whatever `HG_Get_output` has returned. -/
def redirect : Kind → Completion → Process T
  | .openFile fd, .output out => { s with fdRedirMap := s.fdRedirMap.insert fd out }
  | .openFile fd, .undecodable g => { s with fdRedirMap := s.fdRedirMap.insert fd g }
  | _, _ => s

def effect (t : T) : Act → Process T
  | .waiter =>
    match (s.calls t).waiter with
    | .lockCounters => { s with counting := some t }
    | .count =>
      let host := (s.calls t).host
      { s with counters := Function.update s.counters host (s.counters host + 1) }
    | .unlockCounters => { s with counting := none }
    | _ => s
  | .callback =>
    match (s.calls t).callback with
    | .arrived r => s.redirect (s.calls t).kind r
    | _ => s
  | _ => s

/-- The call waits for `timeout_mutex`. -/
def Blocked (t : T) (a : Act) : Prop :=
  a = .waiter ∧ (s.calls t).waiter = .lockCounters ∧ s.counting ≠ none

instance (t : T) (a : Act) : Decidable (s.Blocked t a) :=
  inferInstanceAs (Decidable (a = .waiter ∧ (s.calls t).waiter = .lockCounters ∧ s.counting ≠ none))

def step (s : Process T) (l : Label T) : Option (Process T) :=
  if s.Blocked l.call l.act then none
  else ((s.calls l.call).step l.act).map fun f ↦
    { s.effect l.call l.act with calls := Function.update s.calls l.call f }

end Process

/-- Calls that have forwarded their requests, of these kinds and to these hosts. -/
def start {T : Type} (calls : T → Kind × Host) (counters : Host → ℕ) (redir : PMap Fd Fd) :
    Process T where
  calls t := { kind := (calls t).1, host := (calls t).2 }
  counters := counters
  counting := none
  fdRedirMap := redir

/-- The place holds the mutex. -/
def Waiter.inside : Waiter → Bool
  | .lock | .asleep | .returned _ _ => false
  | _ => true

/-- In the branch for `ETIMEDOUT`. -/
def Waiter.timedOut : Waiter → Bool
  | .lockCounters | .count | .unlockCounters | .unlock true _ => true
  | _ => false

/-- Out of the loop because `*done` was set. -/
def Waiter.answered : Waiter → Bool
  | .take | .unlock false _ | .returned false _ => true
  | _ => false

/-- What the call returns, and whether for `ETIMEDOUT`, once that is known. -/
def Waiter.result : Waiter → Option (Bool × Option ℤ)
  | .unlock e ret | .returned e ret => some (e, ret)
  | _ => none

/-- The place holds the mutex. -/
def Callback.inside : Callback → Bool
  | .set | .signal | .unlock => true
  | _ => false

def Callback.early : Callback → Bool
  | .awaiting | .arrived _ | .lock => true
  | _ => false

/-- Behind `*done = HG_TRUE`. -/
def Callback.past : Callback → Bool
  | .signal | .unlock | .finished => true
  | _ => false

/-- Behind `HG_Get_output`. -/
def Callback.decoded : Callback → Bool
  | .awaiting | .arrived _ => false
  | _ => true

namespace Frame

def inside (f : Frame) : Party → Bool
  | .waiter => f.waiter.inside
  | .callback => f.callback.inside

def view (f : Frame) : View Party Unit where
  holder _ := f.holder
  taken p := if f.inside p then [()] else []
  wanted
    | .waiter => if f.waiter = .lock ∨ f.waiter = .asleep then some () else none
    | .callback => if f.callback = .lock then some () else none

inductive Grip (p : Party) (f f' : Frame) : Prop
  | keeps (h : f'.inside p = f.inside p) (hh : f'.holder = f.holder)
  | takes (h : f'.inside p = true) (hfree : f.holder = none) (hh : f'.holder = some p)
  | gives (h : f.inside p = true) (h' : f'.inside p = false) (hh : f'.holder = none)

variable {f f' : Frame} {p : Party}

theorem inside_iff (h : f.view.Sound) (p : Party) : f.inside p = true ↔ f.holder = some p := by
  simpa [view] using h p ()

theorem Grip.sound (hg : Grip p f f') (h : f.view.Sound)
    (hother : ∀ q, q ≠ p → f'.inside q = f.inside q) : f'.view.Sound := by
  have htaken : ∀ q, q ≠ p → f'.view.taken q = f.view.taken q := fun q hq ↦ by
    simp [view, hother q hq]
  cases hg with
  | keeps hp hh =>
    refine h.congr (fun q ↦ ?_) (funext fun _ ↦ hh)
    by_cases hq : q = p
    · subst hq
      simp [view, hp]
    · exact htaken q hq
  | takes hp hfree hh =>
    have hout : f.inside p = false := by
      rw [Bool.eq_false_iff, ne_eq, inside_iff h p, hfree]
      simp
    exact h.acquire (m := ()) hfree htaken (by simp [view, hp, hout])
      (funext fun _ ↦ by simp [view, hh])
  | gives hp hp' hh =>
    exact h.release (m := ()) htaken (by simp [view, hp, hp']) (by simp [view, hp'])
      (funext fun _ ↦ by simp [view, hh])

end Frame

/-- What is in `*bytes_read` behind `HG_Get_output`. -/
def Kind.bytesRead : Kind → Completion → Option ℤ
  | _, .failed => none
  | .read, .output out => some out
  | _, _ => some (-1)

/-- `*done` and `*bytes_read` are what the callback has made of the reply. -/
structure Frame.Answered (f : Frame) : Prop where
  done : f.cell.done = f.callback.past
  arrived : ∀ r, f.callback = .arrived r → f.reply = some r
  fresh : f.callback.decoded = false → f.cell.bytesRead = -1
  received : f.callback.decoded = true → ∃ r, f.reply = some r ∧
    f.kind.bytesRead r = some f.cell.bytesRead

/-- Out of its loop, a call knows that `*done` is set, and a read returns `*bytes_read`. -/
structure Frame.Taken (f : Frame) : Prop where
  done : f.waiter.answered = true → f.cell.done = true
  value : f.kind = .read → ∀ ret, f.waiter.result = some (false, ret) →
    ret = some f.cell.bytesRead
  noReply : ∀ ret, f.waiter.result = some (true, ret) → ret = f.noReply

/-- A call counts a failure only while there is no reply. -/
def Frame.Missed (f : Frame) : Prop := f.waiter.timedOut = true → f.cell.done = false

structure Waits (f f' : Frame) : Prop where
  frame : f' = { f with waiter := f'.waiter, holder := f'.holder }
  grip : f.Grip .waiter f'
  answered : f'.waiter.answered = true → f.waiter.answered = true ∨ f.cell.done = true
  result : f'.waiter.result = f.waiter.result ∨
    f.waiter = .take ∧ f'.waiter.result = some (false, some f.cell.bytesRead) ∨
    f'.waiter.result = some (true, f.noReply) ∨
    f.kind ≠ .read ∧ f'.waiter.result = some (false, none)
  timedOut : f'.waiter.timedOut = true → f.waiter.timedOut = true
  returned : ∀ e ret, f'.waiter = .returned e ret → f.waiter = .unlock e ret

theorem Waiter.of_timedOut {w : Waiter} (h : w.timedOut = true) :
    w.inside = true ∧ w.answered = false := by
  cases w with
  | unlock e ret => cases e <;> simp_all [Waiter.timedOut, Waiter.inside, Waiter.answered]
  | _ => simp_all [Waiter.timedOut, Waiter.inside, Waiter.answered]

theorem Frame.afterLoop_cases (f : Frame) :
    f.afterLoop.inside = true ∧ f.afterLoop.timedOut = false ∧
      (f.afterLoop.result = none ∨ f.kind ≠ .read ∧ f.afterLoop.result = some (false, none)) := by
  cases hk : f.kind <;> simp [afterLoop, hk, Waiter.inside, Waiter.timedOut, Waiter.result]

theorem Waits.branch {f : Frame} {w : Waiter} (h : f.waiter.timedOut = true)
    (hw : w.timedOut = true)
    (hr : w.result = f.waiter.result ∨ w.result = some (true, f.noReply)) :
    Waits f { f with waiter := w } where
  frame := rfl
  grip := .keeps ((Waiter.of_timedOut hw).1.trans (Waiter.of_timedOut h).1.symm) rfl
  answered ha := absurd ha (by simp [(Waiter.of_timedOut hw).2])
  result := hr.imp id fun hr ↦ .inr (.inl hr)
  timedOut _ := h
  returned e ret hret := by
    obtain rfl : w = .returned e ret := hret
    cases hw

theorem wait_spec {f f' : Frame} (hs : f.wait = some f') : Waits f f' := by
  cases hp : f.waiter with
  | lock =>
    simp only [Frame.wait, hp] at hs
    split at hs
    case isTrue hfree =>
      cases hs
      exact ⟨rfl, .takes rfl hfree rfl, by simp [Waiter.answered], .inl (by rw [hp]; rfl),
        by simp [Waiter.timedOut], by simp⟩
    case isFalse => cases hs
  | test =>
    have hin : f.inside .waiter = true := by simp [Frame.inside, hp, Waiter.inside]
    have hnone : f.waiter.result = none := by rw [hp]; rfl
    obtain ⟨hinside, htimedOut, hresult⟩ := f.afterLoop_cases
    simp only [Frame.wait, hp] at hs
    split at hs
    case isTrue hd =>
      cases hs
      refine ⟨rfl, .keeps (hinside.trans hin.symm) rfl, fun _ ↦ .inr hd,
        hresult.imp (·.trans hnone.symm) fun h ↦ .inr (.inr h), by simp [htimedOut],
        fun e ret hret ↦ ?_⟩
      obtain hret : f.afterLoop = .returned e ret := hret
      simp [hret, Waiter.inside] at hinside
    case isFalse =>
      cases hs
      exact ⟨rfl, .gives hin rfl rfl, by simp [Waiter.answered], .inl hnone.symm,
        by simp [Waiter.timedOut], by simp⟩
  | asleep => simp [Frame.wait, hp] at hs
  | lockCounters =>
    simp only [Frame.wait, hp, Option.some.injEq] at hs
    subst hs
    exact .branch (by rw [hp]; rfl) rfl (.inl (by rw [hp]; rfl))
  | count =>
    simp only [Frame.wait, hp, Option.some.injEq] at hs
    subst hs
    exact .branch (by rw [hp]; rfl) rfl (.inl (by rw [hp]; rfl))
  | unlockCounters =>
    simp only [Frame.wait, hp, Option.some.injEq] at hs
    subst hs
    exact .branch (by rw [hp]; rfl) rfl (.inr rfl)
  | take =>
    simp only [Frame.wait, hp, Option.some.injEq] at hs
    subst hs
    exact ⟨rfl, .keeps (by simp [Frame.inside, hp, Waiter.inside]) rfl,
      by simp [hp, Waiter.answered], .inr (.inl ⟨hp, rfl⟩), by simp [Waiter.timedOut], by simp⟩
  | unlock e ret =>
    simp only [Frame.wait, hp, Option.some.injEq] at hs
    subst hs
    refine ⟨rfl, .gives (by simp [Frame.inside, hp, Waiter.inside]) rfl rfl, ?_,
      .inl (by rw [hp]; rfl), by simp [Waiter.timedOut], by simp [hp]⟩
    cases e <;> simp [hp, Waiter.answered]
  | returned e ret => simp [Frame.wait, hp] at hs

theorem wake_spec {f f' : Frame} {e : Bool} (hs : f.wake e = some f') :
    f.waiter = .asleep ∧ f.holder = none ∧ f' =
      { f with waiter := if e then .lockCounters else .test, holder := some .waiter } := by
  simp only [Frame.wake] at hs
  split at hs
  case isTrue h =>
    cases hs
    exact ⟨h.1, h.2.1, rfl⟩
  case isFalse => cases hs

theorem arrive_spec {f f' : Frame} {r : Completion} (hs : f.step (.arrive r) = some f') :
    f.callback = .awaiting ∧ f' = { f with callback := .arrived r, reply := some r } := by
  simp only [Frame.step] at hs
  split at hs
  case isTrue h =>
    cases hs
    exact ⟨h, rfl⟩
  case isFalse => cases hs

/-- What a step of the callback does to the frame, where `*done` is as it should be. -/
structure Calls (f f' : Frame) : Prop where
  frame : f' = { f with callback := f'.callback, cell := f'.cell, holder := f'.holder }
  grip : f.Grip .callback f'
  decoded : f'.callback.decoded = true
  done : f'.cell.done = f'.callback.past
  kept : f'.cell.done = f.cell.done ∨ f.callback = .set
  bytesRead : f.callback.decoded = true → f'.cell.bytesRead = f.cell.bytesRead
  received : ∀ r, f.callback = .arrived r → f.cell.bytesRead = -1 →
    f.kind.bytesRead r = some f'.cell.bytesRead

theorem call_spec {f f' : Frame} (hd : f.cell.done = f.callback.past) (hs : f.call = some f') :
    Calls f f' := by
  cases hp : f.callback with
  | awaiting => simp [Frame.call, hp] at hs
  | arrived r =>
    have hgrip (g : Frame) (hg : g.callback = .lock) (hh : g.holder = f.holder) :
        f.Grip .callback g := .keeps (by simp [Frame.inside, hp, hg, Callback.inside]) hh
    have hclear : f.cell.done = false := by simp [hd, hp, Callback.past]
    cases r with
    | failed => simp [Frame.call, Frame.decode, hp] at hs
    | undecodable g =>
      simp only [Frame.call, Frame.decode, hp, Option.some.injEq] at hs
      subst hs
      refine ⟨rfl, hgrip _ rfl rfl, rfl, hclear, .inl rfl, fun _ ↦ rfl, fun r hr hfresh ↦ ?_⟩
      obtain rfl : .undecodable g = r := by simpa [hp] using hr
      cases hk : f.kind <;> simp [Kind.bytesRead, hfresh]
    | output out =>
      simp only [Frame.call, Frame.decode, hp] at hs
      split at hs
      case h_1 fd hk =>
        cases hs
        refine ⟨rfl, hgrip _ rfl rfl, rfl, hclear, .inl rfl, fun _ ↦ rfl, fun r hr hfresh ↦ ?_⟩
        obtain rfl : .output out = r := by simpa [hp] using hr
        simp [Kind.bytesRead, hk, hfresh]
      case h_2 hk =>
        cases hs
        refine ⟨rfl, hgrip _ rfl rfl, rfl, hclear, .inl rfl, by simp [hp, Callback.decoded],
          fun r hr _ ↦ ?_⟩
        obtain rfl : .output out = r := by simpa [hp] using hr
        simp [Kind.bytesRead, hk]
  | lock =>
    simp only [Frame.call, hp] at hs
    split at hs
    case isTrue hfree =>
      cases hs
      exact ⟨rfl, .takes rfl hfree rfl, rfl, by simp [hd, hp, Callback.past], .inl rfl,
        fun _ ↦ rfl, by simp [hp]⟩
    case isFalse => cases hs
  | set =>
    simp only [Frame.call, hp, Option.some.injEq] at hs
    subst hs
    exact ⟨rfl, .keeps (by simp [Frame.inside, hp, Callback.inside]) rfl, rfl, rfl, .inr hp,
      fun _ ↦ rfl, by simp [hp]⟩
  | signal =>
    simp only [Frame.call, hp, Option.some.injEq] at hs
    subst hs
    exact ⟨rfl, .keeps (by simp [Frame.inside, hp, Callback.inside]) rfl, rfl,
      by simp [hd, hp, Callback.past], .inl rfl, fun _ ↦ rfl, by simp [hp]⟩
  | unlock =>
    simp only [Frame.call, hp, Option.some.injEq] at hs
    subst hs
    exact ⟨rfl, .gives (by simp [Frame.inside, hp, Callback.inside]) rfl rfl, rfl,
      by simp [hd, hp, Callback.past], .inl rfl, fun _ ↦ rfl, by simp [hp]⟩
  | finished => simp [Frame.call, hp] at hs

theorem Calls.waiter {f f' : Frame} (h : Calls f f') : f'.waiter = f.waiter := by rw [h.frame]

theorem Calls.done_kept {f f' : Frame} (h : Calls f f') (hd : f.cell.done = f.callback.past)
    (hdone : f.cell.done = true) : f'.cell.done = true := by
  obtain hkept | hset := h.kept
  · exact hkept.trans hdone
  · simp [hdone, hset, Callback.past] at hd

/-- What holds of a frame in every interleaving. -/
structure Frame.Sound (f : Frame) : Prop where
  locked : f.view.Sound
  answered : f.Answered
  taken : f.Taken

namespace Frame

variable {f f' : Frame}

theorem Answered.congr (h : f.Answered) (hk : f'.kind = f.kind) (hc : f'.callback = f.callback)
    (hcell : f'.cell = f.cell) (hr : f'.reply = f.reply) : f'.Answered := by
  constructor
  · rw [hcell, hc]
    exact h.done
  · rw [hc, hr]
    exact h.arrived
  · rw [hc, hcell]
    exact h.fresh
  · rw [hc, hr, hk, hcell]
    exact h.received

theorem noReply_congr (h : f'.kind = f.kind) : f'.noReply = f.noReply := by
  rw [noReply, noReply, h]

theorem Answered.decoded (h : f.Answered) (hd : f.cell.done = true) :
    f.callback.decoded = true := by
  have hpast : f.callback.past = true := h.done.symm.trans hd
  cases hp : f.callback <;> simp_all [Callback.past, Callback.decoded]

namespace Sound

theorem wait (h : f.Sound) (hs : f.wait = some f') : f'.Sound := by
  have hw := wait_spec hs
  have hcell : f'.cell = f.cell := by rw [hw.frame]
  have hcallback : f'.callback = f.callback := by rw [hw.frame]
  have hkind : f'.kind = f.kind := by rw [hw.frame]
  refine ⟨hw.grip.sound h.locked fun q hq ↦ ?_,
    h.answered.congr hkind hcallback hcell (by rw [hw.frame]),
    ⟨fun ha ↦ ?_, fun hk ret hr ↦ ?_, fun ret hr ↦ ?_⟩⟩
  · cases q with
    | waiter => exact absurd rfl hq
    | callback => rw [Frame.inside, Frame.inside, hcallback]
  · rw [hcell]
    exact (hw.answered ha).elim h.taken.done id
  · rw [hcell]
    rw [hkind] at hk
    obtain he | ⟨-, he⟩ | he | ⟨hne, -⟩ := hw.result
    · exact h.taken.value hk ret (he ▸ hr)
    · simpa [hr] using he
    · simp [hr] at he
    · exact absurd hk hne
  · rw [noReply_congr hkind]
    obtain he | ⟨-, he⟩ | he | ⟨-, he⟩ := hw.result
    · exact h.taken.noReply ret (he ▸ hr)
    · simp [hr] at he
    · simpa [hr] using he
    · simp [hr] at he

theorem wake (h : f.Sound) {e : Bool} (hs : f.wake e = some f') : f'.Sound := by
  obtain ⟨-, hfree, rfl⟩ := wake_spec hs
  have hgrip : f.Grip .waiter
      { f with waiter := if e then .lockCounters else .test, holder := some .waiter } :=
    .takes (by cases e <;> rfl) hfree rfl
  refine ⟨hgrip.sound h.locked fun q hq ↦ ?_, h.answered.congr rfl rfl rfl rfl, ?_⟩
  · cases q with
    | waiter => exact absurd rfl hq
    | callback => rfl
  · constructor <;> cases e <;> simp [Waiter.answered, Waiter.result]

theorem call (h : f.Sound) (hs : f.call = some f') : f'.Sound := by
  have hc := call_spec h.answered.done hs
  have hreply : f'.reply = f.reply := by rw [hc.frame]
  have hkind : f'.kind = f.kind := by rw [hc.frame]
  refine ⟨hc.grip.sound h.locked fun q hq ↦ ?_,
    ⟨hc.done, fun r hr ↦ ?_, fun hd ↦ ?_, fun _ ↦ ?_⟩,
    ⟨fun ha ↦ ?_, fun hk ret hr ↦ ?_, fun ret hr ↦ ?_⟩⟩
  · cases q with
    | waiter => rw [Frame.inside, Frame.inside, hc.waiter]
    | callback => exact absurd rfl hq
  · have hdecoded := hc.decoded
    simp [hr, Callback.decoded] at hdecoded
  · rw [hc.decoded] at hd
    cases hd
  · rw [hreply, hkind]
    cases hp : f.callback with
    | awaiting => simp [Frame.call, hp] at hs
    | arrived r =>
      have hfresh := h.answered.fresh (by rw [hp]; rfl)
      exact ⟨r, h.answered.arrived r hp, hc.received r hp hfresh⟩
    | _ =>
      have hd : f.callback.decoded = true := by rw [hp]; rfl
      rw [hc.bytesRead hd]
      exact h.answered.received hd
  · rw [hc.waiter] at ha
    exact hc.done_kept h.answered.done (h.taken.done ha)
  · rw [hc.waiter] at hr
    rw [hkind] at hk
    have hd : f.cell.done = true := by
      refine h.taken.done ?_
      cases hp : f.waiter <;> simp_all [Waiter.result, Waiter.answered]
    rw [hc.bytesRead (h.answered.decoded hd)]
    exact h.taken.value hk ret hr
  · rw [hc.waiter] at hr
    rw [noReply_congr hkind]
    exact h.taken.noReply ret hr

theorem step (h : f.Sound) {a : Act} (hs : f.step a = some f') : f'.Sound := by
  cases a with
  | waiter => exact h.wait hs
  | wake e => exact h.wake hs
  | callback => exact h.call hs
  | deadline =>
    cases hs
    exact ⟨h.locked, h.answered.congr rfl rfl rfl rfl,
      ⟨h.taken.done, h.taken.value, h.taken.noReply⟩⟩
  | arrive r =>
    obtain ⟨hp, rfl⟩ := arrive_spec hs
    have hdone := h.answered.done
    have hfresh := h.answered.fresh (by rw [hp]; rfl)
    rw [hp] at hdone
    refine ⟨h.locked.congr (fun q ↦ ?_) rfl,
      ⟨hdone, by simp, fun _ ↦ hfresh, by simp [Callback.decoded]⟩,
      ⟨h.taken.done, h.taken.value, h.taken.noReply⟩⟩
    cases q with
    | waiter => rfl
    | callback => simp [Frame.view, Frame.inside, hp, Callback.inside]

/-- A call that wakes up before its callback is in the critical section has not missed it by the
time it counts. -/
theorem missed (h : f.Sound) (hm : f.Missed) {a : Act} (hs : f.step a = some f')
    (hp : a = .wake true → f.callback.early = true) : f'.Missed := by
  cases a with
  | waiter =>
    have hw := wait_spec hs
    intro ht
    rw [hw.frame]
    exact hm (hw.timedOut ht)
  | wake e =>
    obtain ⟨-, -, rfl⟩ := wake_spec hs
    cases e with
    | false => simp [Missed, Waiter.timedOut]
    | true =>
      have hearly := hp rfl
      intro _
      rw [h.answered.done]
      cases hc : f.callback <;> simp_all [Callback.early, Callback.past]
  | callback =>
    have hc := call_spec h.answered.done hs
    intro ht
    rw [hc.waiter] at ht
    obtain hkept | hset := hc.kept
    · rw [hkept]
      exact hm ht
    · -- the call holds the mutex in this branch, so its callback is not at `*done = HG_TRUE`
      have hcallback : f.holder = some .callback :=
        (inside_iff h.locked .callback).mp (by simp [Frame.inside, hset, Callback.inside])
      have hwaits : f.holder = some .waiter :=
        (inside_iff h.locked .waiter).mp (Waiter.of_timedOut ht).1
      simp [hcallback] at hwaits
  | deadline =>
    cases hs
    exact hm
  | arrive r =>
    obtain ⟨-, rfl⟩ := arrive_spec hs
    exact hm

theorem returned (h : f.Sound) {a : Act} (hs : f.step a = some f') {e : Bool} {ret : Option ℤ}
    (hr : f'.waiter = .returned e ret) (hne : f.waiter ≠ .returned e ret) :
    f.waiter = .unlock e ret := by
  cases a with
  | waiter => exact (wait_spec hs).returned e ret hr
  | wake expired =>
    obtain ⟨-, -, rfl⟩ := wake_spec hs
    cases expired <;> cases hr
  | callback => exact absurd ((call_spec h.answered.done hs).waiter.symm.trans hr) hne
  | deadline =>
    cases hs
    exact absurd hr hne
  | arrive r =>
    obtain ⟨-, rfl⟩ := arrive_spec hs
    exact absurd hr hne

end Sound

end Frame

/-- How the reply to a call has come out for it. -/
def Frame.ending (f : Frame) (expired : Bool) : Option Ending :=
  if expired then some .timedOut else f.reply.map .completed

theorem awaitTransfer_completed {cl : Client} {cell : Addr} (h : cl.cells cell = {}) (host : Host)
    (r : Completion) :
    (cl.awaitTransfer host cell (.completed r)).toOption.map Prod.snd = Kind.read.bytesRead r := by
  cases r with
  | failed => rfl
  | undecodable g =>
    simp [Client.awaitTransfer, ftcReadCb, setDone, h, Except.map, Except.toOption, Kind.bytesRead]
  | output out =>
    simp [Client.awaitTransfer, ftcReadCb, Except.map, Except.toOption, Kind.bytesRead]

theorem Frame.Sound.awaitTransfer {f : Frame} (h : f.Sound) (hk : f.kind = .read) {e : Bool}
    {ret : Option ℤ} (hr : f.waiter = .returned e ret) {cl : Client} {cell : Addr}
    (hcell : cl.cells cell = {}) : ∃ ending, f.ending e = some ending ∧
      (cl.awaitTransfer f.host cell ending).toOption.map Prod.snd = ret := by
  cases e with
  | true =>
    have hret := h.taken.noReply ret (by rw [hr]; rfl)
    exact ⟨.timedOut, rfl, by rw [hret, Frame.noReply, hk]; rfl⟩
  | false =>
    have hdone := h.taken.done (by rw [hr]; rfl)
    have hret := h.taken.value hk ret (by rw [hr]; rfl)
    obtain ⟨r, hreply, hbytes⟩ := h.answered.received (h.answered.decoded hdone)
    refine ⟨.completed r, by simp [Frame.ending, hreply], ?_⟩
    rw [awaitTransfer_completed hcell, hret, ← hbytes, hk]

section Run

variable {T : Type} [DecidableEq T]

def Process.Returns (s s' : Process T) (t : T) (expired : Bool) (ret : Option ℤ) : Prop :=
  (s'.calls t).waiter = .returned expired ret ∧ (s.calls t).waiter ≠ .returned expired ret

/-- Where a step counts a failure or ends a wait for `ETIMEDOUT`, `*done` is not set; and where
it is, a read returns what has been received. -/
structure Honest (s : Process T) (l : Label T) : Prop where
  counted : ∀ s' host, s.step l = some s' → s'.counters host ≠ s.counters host →
    (s.calls l.call).host = host ∧ (s.calls l.call).cell.done = false
  timedOut : ∀ s' t ret, s.step l = some s' → s.Returns s' t true ret →
    (s.calls t).cell.done = false
  answered : ∀ s' t expired ret, s.step l = some s' → s.Returns s' t expired ret →
    (s.calls t).kind = .read → (s.calls t).cell.done = true →
    ret = some (s.calls t).cell.bytesRead ∧
      ∀ out, (s.calls t).reply = some (.output out) → (s.calls t).cell.bytesRead = out

/-- A call that `pthread_cond_timedwait` gives `ETIMEDOUT` is back at its mutex before its
callback is in the critical section. -/
def Prompt (s : Process T) (l : Label T) : Prop :=
  l.act = .wake true → (s.calls l.call).callback.early = true

instance (s : Process T) (l : Label T) : Decidable (Prompt s l) :=
  inferInstanceAs (Decidable (l.act = .wake true → (s.calls l.call).callback.early = true))

variable {s s' : Process T} {l : Label T}

theorem step_frame (hs : s.step l = some s') : ¬s.Blocked l.call l.act ∧
    ∃ f, (s.calls l.call).step l.act = some f ∧
      s' = { s.effect l.call l.act with calls := Function.update s.calls l.call f } := by
  simp only [Process.step] at hs
  split at hs
  case isTrue => cases hs
  case isFalse hb =>
    obtain ⟨f, hf, rfl⟩ := Option.map_eq_some_iff.mp hs
    exact ⟨hb, f, hf, rfl⟩

theorem step_calls {P : Frame → Prop} (h : ∀ t, P (s.calls t)) (hs : s.step l = some s')
    (hf : ∀ f, (s.calls l.call).step l.act = some f → P f) : ∀ t, P (s'.calls t) := by
  obtain ⟨-, f, hstep, rfl⟩ := step_frame hs
  intro t
  by_cases ht : t = l.call
  · subst ht
    simpa using hf f hstep
  · simpa [ht] using h t

omit [DecidableEq T] in
theorem effect_counters {t : T} {a : Act} {host : Host}
    (h : (s.effect t a).counters host ≠ s.counters host) :
    a = .waiter ∧ (s.calls t).waiter = .count ∧ (s.calls t).host = host := by
  unfold Process.effect at h
  split at h
  case h_1 =>
    split at h
    case h_2 hp =>
      refine ⟨rfl, hp, ?_⟩
      by_contra hne
      simp [Ne.symm hne] at h
    all_goals exact absurd rfl h
  case h_2 =>
    split at h
    case h_1 r hr =>
      unfold Process.redirect at h
      split at h <;> exact absurd rfl h
    case h_2 => exact absurd rfl h
  case h_3 => exact absurd rfl h

theorem returns_unlock {t : T} {expired : Bool} {ret : Option ℤ} (h : ∀ t, (s.calls t).Sound)
    (hs : s.step l = some s') (hr : s.Returns s' t expired ret) :
    (s.calls t).waiter = .unlock expired ret := by
  obtain ⟨-, f, hstep, rfl⟩ := step_frame hs
  obtain ⟨hret, hnot⟩ := hr
  by_cases ht : t = l.call
  · subst ht
    exact (h _).returned hstep (by simpa using hret) hnot
  · simp only [Function.update_of_ne ht] at hret
    exact absurd hret hnot

/-- While no call in the branch for `ETIMEDOUT` has its reply, the next step counts no reply as a
failure and passes none over. -/
theorem honest_of_missed (h : ∀ t, (s.calls t).Sound) (hm : ∀ t, (s.calls t).Missed) :
    Honest s l where
  counted s' host hs hne := by
    obtain ⟨-, f, -, rfl⟩ := step_frame hs
    obtain ⟨-, hp, hhost⟩ := effect_counters hne
    exact ⟨hhost, hm _ (by rw [hp]; rfl)⟩
  timedOut s' t ret hs hr := hm t (by rw [returns_unlock h hs hr]; rfl)
  answered s' t expired ret hs hr hk hd := by
    have hp := returns_unlock h hs hr
    have hexpired : expired = false := by
      by_contra htrue
      have hmissed := hm t (by rw [hp, Bool.eq_true_of_not_eq_false htrue]; rfl)
      simp [hd] at hmissed
    subst hexpired
    refine ⟨(h t).taken.value hk ret (by rw [hp]; rfl), fun out hout ↦ ?_⟩
    obtain ⟨r, hreply, hbytes⟩ := (h t).answered.received ((h t).answered.decoded hd)
    obtain rfl : r = .output out := Option.some.inj (hreply.symm.trans hout)
    simpa [hk, Kind.bytesRead, eq_comm] using hbytes

omit [DecidableEq T] in
theorem start_sound (calls : T → Kind × Host) (counters : Host → ℕ) (redir : PMap Fd Fd) (t : T) :
    ((start calls counters redir).calls t).Sound := by
  refine ⟨fun q m ↦ ?_, ⟨rfl, by simp [start], fun _ ↦ rfl, by simp [start, Callback.decoded]⟩,
    ⟨by simp [start, Waiter.answered], by simp [start, Waiter.result],
      by simp [start, Waiter.result]⟩⟩
  cases q <;> simp [start, Frame.view, Frame.inside, Waiter.inside, Callback.inside]

/-- In every interleaving, a read that has returned has returned what it returns where the wait
and the callback are one step. -/
theorem read_returns {calls : T → Kind × Host} {counters : Host → ℕ} {redir : PMap Fd Fd}
    (hs : Reach Process.step (fun _ _ ↦ True) (start calls counters redir) s) {t : T} {e : Bool}
    {ret : Option ℤ} (hk : (s.calls t).kind = .read) (hr : (s.calls t).waiter = .returned e ret)
    {cl : Client} {cell : Addr} (hcell : cl.cells cell = {}) :
    ∃ ending, (s.calls t).ending e = some ending ∧
      (cl.awaitTransfer (s.calls t).host cell ending).toOption.map Prod.snd = ret := by
  have hsound := hs.invariant (fun s ↦ ∀ t, (s.calls t).Sound) (start_sound calls counters redir)
    fun _ _ _ h _ hstep ↦ step_calls h hstep fun f hf ↦ (h _).step hf
  exact (hsound t).awaitTransfer hk hr hcell

/-- The reply comes while the call sleeps, and the call wakes after its deadline, but not for it. -/
theorem read_returns_late : ∃ (s : Process Unit) (cl : Client) (ending : Ending),
    (s.calls ()).late = true ∧ (s.calls ()).waiter = .returned false (some 4) ∧
    (s.calls ()).ending false = some ending ∧
      (cl.awaitTransfer (s.calls ()).host 0 ending).toOption.map Prod.snd = some 4 := by
  let acts : List Act := [.waiter, .waiter, .deadline, .arrive (.output 4), .callback, .callback,
    .callback, .callback, .callback, .wake false, .waiter, .waiter, .waiter]
  obtain ⟨s, hs, hk, hlate, hr⟩ : ∃ s, Reach Process.step (fun _ _ ↦ True)
      (start (fun _ : Unit ↦ (.read, 0)) (fun _ ↦ 0) fun _ ↦ none) s ∧
      (s.calls ()).kind = .read ∧ (s.calls ()).late = true ∧
      (s.calls ()).waiter = .returned false (some 4) :=
    Reach.exists_of_exec (acts.map fun a ↦ ⟨(), a⟩) (by decide +kernel) (by decide +kernel)
  let cl : Client :=
    { fdMap := fun _ ↦ none, fdRedirMap := fun _ ↦ none, timeoutCounters := fun _ ↦ 0
      addressCache := fun _ ↦ none, kernel := fun _ ↦ none, memory := fun _ ↦ 0
      cells := fun _ ↦ {}, seekDone := 0, readRet := -1, blocked := none }
  obtain ⟨ending, he, hret⟩ := read_returns hs hk hr (show cl.cells 0 = {} from rfl)
  exact ⟨s, cl, ending, hlate, hr, he, hret⟩

/-- The call is about to count a failure. -/
def Waiter.counting (w : Waiter) : Prop := w = .lockCounters ∨ w = .count

instance : DecidablePred Waiter.counting := fun w ↦
  inferInstanceAs (Decidable (w = .lockCounters ∨ w = .count))

/-- No call is about to count a failure. -/
def Settled (s : Process T) : Prop := ∀ t, ¬(s.calls t).waiter.counting

/-- The call is about to count a failure, and its reply is there. -/
def Blamed (f : Frame) : Prop := f.waiter.counting ∧ f.cell.done = true

theorem Frame.Sound.blamed {f f' : Frame} (h : f.Sound) (hb : Blamed f) {a : Act}
    (hs : f.step a = some f') : Blamed f' ∨ a = .waiter ∧ f.waiter = .count := by
  obtain ⟨hp, hd⟩ := hb
  cases a with
  | waiter =>
    obtain hp | hp := hp
    · simp only [Frame.step, Frame.wait, hp, Option.some.injEq] at hs
      subst hs
      exact .inl ⟨.inr rfl, hd⟩
    · exact .inr ⟨rfl, hp⟩
  | wake e =>
    obtain ⟨hasleep, -, -⟩ := wake_spec hs
    simp [Waiter.counting, hasleep] at hp
  | callback =>
    have hc := call_spec h.answered.done hs
    exact .inl ⟨hc.waiter ▸ hp, hc.done_kept h.answered.done hd⟩
  | deadline =>
    cases hs
    exact .inl ⟨hp, hd⟩
  | arrive r =>
    obtain ⟨-, rfl⟩ := arrive_spec hs
    exact .inl ⟨hp, hd⟩

/-- A run that brings a blamed call out of its branch is not honest. -/
theorem blamed_run {t : T} {ls : List (Label T)} (h : ∀ t, (s.calls t).Sound)
    (hb : Blamed (s.calls t)) (hs : exec Process.step s ls = some s')
    (hsettled : ¬(s'.calls t).waiter.counting) : ¬Along Process.step Honest s ls := by
  induction ls generalizing s with
  | nil =>
    cases hs
    exact absurd hb.1 hsettled
  | cons l ls ih =>
    obtain ⟨b, hstep, hs⟩ := Option.bind_eq_some_iff.mp hs
    have hsound : ∀ t, (b.calls t).Sound := step_calls h hstep fun f hf ↦ (h _).step hf
    rintro ⟨hhonest, hrest⟩
    have hrest := hrest b hstep
    obtain ⟨-, f, hf, rfl⟩ := step_frame hstep
    by_cases ht : t = l.call
    · subst ht
      obtain hblamed | ⟨ha, hp⟩ := (h _).blamed hb hf
      · exact ih hsound (by simpa using hblamed) hs hrest
      · have hcount := hhonest.counted _ (s.calls l.call).host hstep
          (by simp [Process.effect, ha, hp])
        simp [hb.2] at hcount
    · exact ih hsound (by simpa [ht] using hb) hs hrest

theorem Frame.Sound.late_wake {f f' : Frame} (h : f.Sound) (hs : f.step (.wake true) = some f')
    (hearly : f.callback.early ≠ true) : Blamed f' := by
  obtain ⟨-, hfree, rfl⟩ := wake_spec hs
  refine ⟨.inl rfl, ?_⟩
  have hout : f.callback.inside = false := by
    have hin := inside_iff h.locked .callback
    simp only [hfree, reduceCtorEq, iff_false, Bool.not_eq_true] at hin
    exact hin
  rw [h.answered.done]
  cases hc : f.callback <;> simp_all [Callback.early, Callback.inside, Callback.past]

theorem prompt_of_honest {ls : List (Label T)} (h : ∀ t, (s.calls t).Sound)
    (hs : exec Process.step s ls = some s') (hsettled : Settled s')
    (hhonest : Along Process.step Honest s ls) : Along Process.step Prompt s ls := by
  induction ls generalizing s with
  | nil => trivial
  | cons l ls ih =>
    obtain ⟨b, hstep, hs⟩ := Option.bind_eq_some_iff.mp hs
    have hsound : ∀ t, (b.calls t).Sound := step_calls h hstep fun f hf ↦ (h _).step hf
    have hrest := hhonest.2 b hstep
    refine ⟨fun ha ↦ ?_, fun c hc ↦ ?_⟩
    · by_contra hearly
      obtain ⟨-, f, hf, hb⟩ := step_frame hstep
      rw [ha] at hf
      have hblamed : Blamed (b.calls l.call) := by
        rw [hb]
        simpa using (h _).late_wake hf hearly
      exact blamed_run hsound hblamed hs (hsettled _) hrest
    · obtain rfl : b = c := Option.some.inj (hstep.symm.trans hc)
      exact ih hsound hs hrest

/-- If every call that its deadline wakes is back at its mutex before its callback, no reply that
has arrived is counted as a failure or passed over; and in a run that leaves no call about to
count, only then. -/
theorem waits_honest (calls : T → Kind × Host) (counters : Host → ℕ) (redir : PMap Fd Fd)
    (ls : List (Label T)) :
    (Along Process.step Prompt (start calls counters redir) ls →
      Along Process.step Honest (start calls counters redir) ls) ∧
    ∀ s, exec Process.step (start calls counters redir) ls = some s → Settled s →
      Along Process.step Honest (start calls counters redir) ls →
      Along Process.step Prompt (start calls counters redir) ls := by
  have hsound := start_sound calls counters redir
  refine ⟨Along.imp (I := fun s ↦ ∀ t, (s.calls t).Sound ∧ (s.calls t).Missed) ?_ ?_
    fun t ↦ ⟨hsound t, by simp [start, Frame.Missed, Waiter.timedOut]⟩,
    fun s hs hsettled ↦ prompt_of_honest hsound hs hsettled⟩
  · exact fun s l hi _ ↦ honest_of_missed (fun t ↦ (hi t).1) fun t ↦ (hi t).2
  · exact fun a l b hi hp hs ↦ step_calls (P := fun f ↦ f.Sound ∧ f.Missed) hi hs fun f hf ↦
      ⟨(hi _).1.step hf, (hi _).1.missed (hi _).2 hf hp⟩

end Run

/-- The deadline of a read passes, its callback gets the mutex first, and it returns -1 with the
four bytes there. -/
theorem reply_discarded :
    ¬∀ (calls : Unit → Kind × Host) (counters : Host → ℕ) (redir : PMap Fd Fd)
      (ls : List (Label Unit)),
      Along Process.step Honest (start calls counters redir) ls := by
  intro h
  let calls : Unit → Kind × Host := fun _ ↦ (.read, 0)
  let acts : List Act := [.waiter, .waiter, .arrive (.output 4), .callback, .deadline, .callback,
    .callback, .callback, .callback, .wake true, .waiter, .waiter, .waiter, .waiter]
  let ls : List (Label Unit) := acts.map fun a ↦ ⟨(), a⟩
  obtain ⟨s, hs, hp⟩ : ∃ s, exec Process.step (start calls (fun _ ↦ 0) fun _ ↦ none) ls = some s ∧
      (s.calls ()).waiter = .returned true (some (-1)) := by
    have hrun : ((exec Process.step (start calls (fun _ ↦ 0) fun _ ↦ none) ls).any
        fun s ↦ (s.calls ()).waiter = .returned true (some (-1))) = true := by decide +kernel
    simpa using (Option.any_eq_true _ _).mp hrun
  have hsettled : Settled s := fun t ↦ by rw [hp]; simp [Waiter.counting]
  have hprompt := prompt_of_honest (start_sound calls _ _) hs hsettled (h calls _ _ ls)
  exact absurd hprompt (by decide +kernel)

end FTCache.TimedWaits
