import FTCache.DataMover
import FTCache.Library.Locks

namespace FTCache

open Posix Runs

inductive Mutex
  | pathMap
  | data
  deriving DecidableEq

/-- Where a thread stands in the part of `ftc_close_rpc_handler` that signals the data
mover. At `lockPathMap` and `lockData` it waits for the mutex. -/
inductive HandlerAt
  | idle
  | lockPathMap (path : Path)
  | find (path : Path)
  | lockData (path : Path)
  | push (path : Path)
  | signal
  | unlockData
  | unlockPathMap
  deriving DecidableEq

/-- Where the data mover stands. `pthread_cond_wait` gives `data_mutex` back at `asleep`
and waits for it again at `woken`. -/
inductive MoverAt
  | lockData
  | testEmpty
  | asleep
  | woken
  | drain
  | copy
  | lockPathMap (filename : Path)
  | publish (filename : Path)
  | unlockPathMap
  | pop
  deriving DecidableEq

inductive Thread (H : Type*)
  | handler (h : H)
  | mover
  deriving DecidableEq

/-- The handler threads, the data mover and what they share. `pushed` and `processed` are
history variables. -/
structure HandOff (H : Type*) where
  handlers : H → HandlerAt
  mover : MoverAt
  holder : Mutex → Option (Thread H)
  dataQueue : List Path
  localList : List Path
  pathCacheMap : PMap Path Path
  pushed : List Path
  processed : List Path

/-- `copied` and `failed` are the two ends of `fs::copy`; `spurious` wakes a waiting mover
that nobody signalled. -/
inductive HandOffLabel (H : Type*)
  | request (h : H) (path : Path)
  | handler (h : H)
  | mover
  | copied (filename : Path)
  | failed
  | spurious

/-- The mutexes a thread has taken at each place, the last one first. -/
def HandlerAt.taken : HandlerAt → List Mutex
  | .idle => []
  | .lockPathMap _ => []
  | .find _ => [.pathMap]
  | .lockData _ => [.pathMap]
  | .push _ => [.data, .pathMap]
  | .signal => [.data, .pathMap]
  | .unlockData => [.data, .pathMap]
  | .unlockPathMap => [.pathMap]

def HandlerAt.wanted : HandlerAt → Option Mutex
  | .lockPathMap _ => some .pathMap
  | .lockData _ => some .data
  | _ => none

def MoverAt.taken : MoverAt → List Mutex
  | .testEmpty => [.data]
  | .drain => [.data]
  | .publish _ => [.pathMap]
  | .unlockPathMap => [.pathMap]
  | _ => []

def MoverAt.wanted : MoverAt → Option Mutex
  | .lockData => some .data
  | .woken => some .data
  | .lockPathMap _ => some .pathMap
  | _ => none

/-- `pthread_cond_signal` on `data_cond`: it has an effect on a waiting thread only. -/
def MoverAt.signalled : MoverAt → MoverAt
  | .asleep => .woken
  | m => m

/-- Between the end of a copy and `local_list.pop()`. -/
def MoverAt.loaded : MoverAt → Bool
  | .lockPathMap _ => true
  | .publish _ => true
  | .unlockPathMap => true
  | .pop => true
  | _ => false

theorem MoverAt.signalled_taken (m : MoverAt) : m.signalled.taken = m.taken := by
  cases m <;> rfl

theorem MoverAt.signalled_loaded (m : MoverAt) : m.signalled.loaded = m.loaded := by
  cases m <;> rfl

namespace HandOff

variable {H : Type*} [DecidableEq H]

def start (cache : PMap Path Path) : HandOff H where
  handlers := fun _ ↦ .idle
  mover := .lockData
  holder := fun _ ↦ none
  dataQueue := []
  localList := []
  pathCacheMap := cache
  pushed := []
  processed := []

def lock (s : HandOff H) (t : Thread H) (m : Mutex) : Option (HandOff H) :=
  if s.holder m = none then some { s with holder := Function.update s.holder m (some t) }
  else none

def unlock (s : HandOff H) (m : Mutex) : HandOff H :=
  { s with holder := Function.update s.holder m none }

def stand (s : HandOff H) (h : H) (a : HandlerAt) : HandOff H :=
  { s with handlers := Function.update s.handlers h a }

def handlerStep (s : HandOff H) (h : H) : Option (HandOff H) :=
  match s.handlers h with
  | .idle => none
  | .lockPathMap path => (s.lock (.handler h) .pathMap).map fun t ↦ t.stand h (.find path)
  | .find path =>
    if s.pathCacheMap path = none then some (s.stand h (.lockData path))
    else some (s.stand h .unlockPathMap)
  | .lockData path => (s.lock (.handler h) .data).map fun t ↦ t.stand h (.push path)
  | .push path => some { s.stand h .signal with
      dataQueue := s.dataQueue ++ [path]
      pushed := s.pushed ++ [path] }
  | .signal => some { s.stand h .unlockData with mover := s.mover.signalled }
  | .unlockData => some ((s.unlock .data).stand h .unlockPathMap)
  | .unlockPathMap => some ((s.unlock .pathMap).stand h .idle)

def moverStep (s : HandOff H) : Option (HandOff H) :=
  match s.mover, s.localList with
  | .lockData, _ => (s.lock .mover .data).map fun t ↦ { t with mover := .testEmpty }
  | .testEmpty, _ =>
    if s.dataQueue = [] then some { s.unlock .data with mover := .asleep }
    else some { s with mover := .drain }
  | .asleep, _ => none
  | .woken, _ => (s.lock .mover .data).map fun t ↦ { t with mover := .testEmpty }
  | .drain, l =>
    match s.dataQueue with
    | [] => some { s.unlock .data with mover := .copy }
    | p :: rest => some { s with dataQueue := rest, localList := l ++ [p] }
  | .copy, [] => some { s with mover := .lockData }
  | .copy, _ :: _ => none
  | .lockPathMap filename, _ =>
    (s.lock .mover .pathMap).map fun t ↦ { t with mover := .publish filename }
  | .publish filename, p :: _ => some { s with
      pathCacheMap := s.pathCacheMap.insert p filename
      mover := .unlockPathMap }
  | .unlockPathMap, _ => some { s.unlock .pathMap with mover := .pop }
  | .pop, p :: rest => some { s with
      localList := rest
      processed := s.processed ++ [p]
      mover := .copy }
  | _, [] => none

def step (s : HandOff H) (l : HandOffLabel H) : Option (HandOff H) :=
  match l with
  | .request h path => if s.handlers h = .idle then some (s.stand h (.lockPathMap path)) else none
  | .handler h => s.handlerStep h
  | .mover => s.moverStep
  | .copied filename =>
    if s.mover = .copy ∧ s.localList ≠ [] then some { s with mover := .lockPathMap filename }
    else none
  | .failed =>
    if s.mover = .copy ∧ s.localList ≠ [] then some { s with mover := .pop } else none
  | .spurious => if s.mover = .asleep then some { s with mover := .woken } else none

/-- What a step does to the threads and to the queues, with the guard of each case. -/
inductive Acts (s : HandOff H) : HandOff H → Prop
  | request (h : H) (path : Path) (ha : s.handlers h = .idle) :
      Acts s (s.stand h (.lockPathMap path))
  | lockPathMap (h : H) (path : Path) (ha : s.handlers h = .lockPathMap path)
      (hm : s.holder .pathMap = none) :
      Acts s { s.stand h (.find path) with
        holder := Function.update s.holder .pathMap (some (.handler h)) }
  | miss (h : H) (path : Path) (ha : s.handlers h = .find path)
      (hc : s.pathCacheMap path = none) : Acts s (s.stand h (.lockData path))
  | hit (h : H) (path : Path) (ha : s.handlers h = .find path)
      (hc : s.pathCacheMap path ≠ none) : Acts s (s.stand h .unlockPathMap)
  | lockData (h : H) (path : Path) (ha : s.handlers h = .lockData path)
      (hm : s.holder .data = none) :
      Acts s { s.stand h (.push path) with
        holder := Function.update s.holder .data (some (.handler h)) }
  | push (h : H) (path : Path) (ha : s.handlers h = .push path) :
      Acts s { s.stand h .signal with
        dataQueue := s.dataQueue ++ [path]
        pushed := s.pushed ++ [path] }
  | signal (h : H) (ha : s.handlers h = .signal) :
      Acts s { s.stand h .unlockData with mover := s.mover.signalled }
  | unlockData (h : H) (ha : s.handlers h = .unlockData) :
      Acts s ((s.unlock .data).stand h .unlockPathMap)
  | unlockPathMap (h : H) (ha : s.handlers h = .unlockPathMap) :
      Acts s ((s.unlock .pathMap).stand h .idle)
  | moverLockData (ha : s.mover = .lockData ∨ s.mover = .woken) (hm : s.holder .data = none) :
      Acts s { s with
        mover := .testEmpty
        holder := Function.update s.holder .data (some .mover) }
  | sleep (ha : s.mover = .testEmpty) (hq : s.dataQueue = []) :
      Acts s { s.unlock .data with mover := .asleep }
  | wake (ha : s.mover = .testEmpty) (hq : s.dataQueue ≠ []) :
      Acts s { s with mover := .drain }
  | drain (p : Path) (rest : List Path) (ha : s.mover = .drain) (hq : s.dataQueue = p :: rest) :
      Acts s { s with
        dataQueue := rest
        localList := s.localList ++ [p] }
  | drained (ha : s.mover = .drain) (hq : s.dataQueue = []) :
      Acts s { s.unlock .data with mover := .copy }
  | finished (ha : s.mover = .copy) (hl : s.localList = []) :
      Acts s { s with mover := .lockData }
  | copied (filename : Path) (ha : s.mover = .copy) (hl : s.localList ≠ []) :
      Acts s { s with mover := .lockPathMap filename }
  | failed (ha : s.mover = .copy) (hl : s.localList ≠ []) : Acts s { s with mover := .pop }
  | moverLockPathMap (filename : Path) (ha : s.mover = .lockPathMap filename)
      (hm : s.holder .pathMap = none) :
      Acts s { s with
        mover := .publish filename
        holder := Function.update s.holder .pathMap (some .mover) }
  | publish (filename p : Path) (rest : List Path) (ha : s.mover = .publish filename)
      (hl : s.localList = p :: rest) :
      Acts s { s with
        pathCacheMap := s.pathCacheMap.insert p filename
        mover := .unlockPathMap }
  | moverUnlockPathMap (ha : s.mover = .unlockPathMap) :
      Acts s { s.unlock .pathMap with mover := .pop }
  | pop (p : Path) (rest : List Path) (ha : s.mover = .pop) (hl : s.localList = p :: rest) :
      Acts s { s with
        localList := rest
        processed := s.processed ++ [p]
        mover := .copy }
  | spurious (ha : s.mover = .asleep) : Acts s { s with mover := .woken }

variable {s s' : HandOff H}

omit [DecidableEq H] in
theorem lock_eq_some {t : Thread H} {m : Mutex} : s.lock t m = some s' ↔
    s.holder m = none ∧ { s with holder := Function.update s.holder m (some t) } = s' := by
  unfold lock
  split
  case isTrue hm => simp [hm]
  case isFalse hm => simp [hm]

theorem handlerStep_acts {h : H} (hs : s.handlerStep h = some s') : Acts s s' := by
  unfold handlerStep at hs
  split at hs
  case h_1 => cases hs
  case h_2 path ha =>
    obtain ⟨t, ht, rfl⟩ := Option.map_eq_some_iff.mp hs
    obtain ⟨hm, rfl⟩ := lock_eq_some.mp ht
    exact .lockPathMap h path ha hm
  case h_3 path ha =>
    split at hs
    case isTrue hc =>
      cases hs
      exact .miss h path ha hc
    case isFalse hc =>
      cases hs
      exact .hit h path ha hc
  case h_4 path ha =>
    obtain ⟨t, ht, rfl⟩ := Option.map_eq_some_iff.mp hs
    obtain ⟨hm, rfl⟩ := lock_eq_some.mp ht
    exact .lockData h path ha hm
  case h_5 path ha =>
    cases hs
    exact .push h path ha
  case h_6 ha =>
    cases hs
    exact .signal h ha
  case h_7 ha =>
    cases hs
    exact .unlockData h ha
  case h_8 ha =>
    cases hs
    exact .unlockPathMap h ha

theorem moverStep_acts (hs : s.moverStep = some s') : Acts s s' := by
  unfold moverStep at hs
  split at hs
  case h_1 ha =>
    obtain ⟨t, ht, rfl⟩ := Option.map_eq_some_iff.mp hs
    obtain ⟨hm, rfl⟩ := lock_eq_some.mp ht
    exact .moverLockData (.inl ha) hm
  case h_2 ha =>
    split at hs
    case isTrue hq =>
      cases hs
      exact .sleep ha hq
    case isFalse hq =>
      cases hs
      exact .wake ha hq
  case h_3 => cases hs
  case h_4 ha =>
    obtain ⟨t, ht, rfl⟩ := Option.map_eq_some_iff.mp hs
    obtain ⟨hm, rfl⟩ := lock_eq_some.mp ht
    exact .moverLockData (.inr ha) hm
  case h_5 ha =>
    split at hs
    case h_1 hq =>
      cases hs
      exact .drained ha hq
    case h_2 p rest hq =>
      cases hs
      exact .drain p rest ha hq
  case h_6 ha hl =>
    cases hs
    exact .finished ha hl
  case h_7 => cases hs
  case h_8 filename ha =>
    obtain ⟨t, ht, rfl⟩ := Option.map_eq_some_iff.mp hs
    obtain ⟨hm, rfl⟩ := lock_eq_some.mp ht
    exact .moverLockPathMap filename ha hm
  case h_9 filename p rest ha hl =>
    cases hs
    exact .publish filename p rest ha hl
  case h_10 ha =>
    cases hs
    exact .moverUnlockPathMap ha
  case h_11 p rest ha hl =>
    cases hs
    exact .pop p rest ha hl
  case h_12 => cases hs

theorem step_acts {l : HandOffLabel H} (hs : s.step l = some s') : Acts s s' := by
  cases l with
  | request h path =>
    obtain ⟨ha, he⟩ := Option.ite_none_right_eq_some.mp hs
    cases he
    exact .request h path ha
  | handler h => exact handlerStep_acts hs
  | mover => exact moverStep_acts hs
  | copied filename =>
    obtain ⟨⟨ha, hl⟩, he⟩ := Option.ite_none_right_eq_some.mp hs
    cases he
    exact .copied filename ha hl
  | failed =>
    obtain ⟨⟨ha, hl⟩, he⟩ := Option.ite_none_right_eq_some.mp hs
    cases he
    exact .failed ha hl
  | spurious =>
    obtain ⟨ha, he⟩ := Option.ite_none_right_eq_some.mp hs
    cases he
    exact .spurious ha

/-- What a thread has taken, at the place where it stands. -/
def taken (s : HandOff H) : Thread H → List Mutex
  | .handler h => (s.handlers h).taken
  | .mover => s.mover.taken

def wanted (s : HandOff H) : Thread H → Option Mutex
  | .handler h => (s.handlers h).wanted
  | .mover => s.mover.wanted

/-- A thread that has something to do: a handler with a request, a mover that is up. -/
def Busy (s : HandOff H) : Thread H → Prop
  | .handler h => s.handlers h ≠ .idle
  | .mover => s.mover ≠ .asleep

def view (s : HandOff H) : Locks.View (Thread H) Mutex where
  holder := s.holder
  taken := s.taken
  wanted := s.wanted

section Sound

variable {h : H} {a : HandlerAt} {m : Mutex}

theorem others_handler (hh : s'.handlers = Function.update s.handlers h a)
    (hm : s'.mover.taken = s.mover.taken) (u : Thread H) (hu : u ≠ .handler h) :
    s'.taken u = s.taken u := by
  cases u with
  | handler k =>
    have hk : k ≠ h := fun he ↦ hu (he ▸ rfl)
    simp [taken, hh, hk]
  | mover => exact hm

omit [DecidableEq H] in
theorem others_mover (hh : s'.handlers = s.handlers) (u : Thread H) (hu : u ≠ .mover) :
    s'.taken u = s.taken u := by
  cases u with
  | handler k => simp [taken, hh]
  | mover => exact absurd rfl hu

theorem keep_handler (hs : s.view.Sound) (hh : s'.handlers = Function.update s.handlers h a)
    (hm : s'.mover.taken = s.mover.taken) (ha : a.taken = (s.handlers h).taken)
    (hl : s'.holder = s.holder) : s'.view.Sound := by
  apply hs.congr _ hl
  intro u
  by_cases hu : u = .handler h
  · subst hu
    simp [view, taken, hh, ha]
  · exact others_handler hh hm u hu

omit [DecidableEq H] in
theorem keep_mover (hs : s.view.Sound) (hh : s'.handlers = s.handlers)
    (hm : s'.mover.taken = s.mover.taken) (hl : s'.holder = s.holder) : s'.view.Sound := by
  apply hs.congr _ hl
  intro u
  cases u with
  | handler k => simp [view, taken, hh]
  | mover => exact hm

theorem lock_handler (hs : s.view.Sound) (hfree : s.holder m = none)
    (hh : s'.handlers = Function.update s.handlers h a) (hm : s'.mover.taken = s.mover.taken)
    (ha : a.taken = m :: (s.handlers h).taken)
    (hl : s'.holder = Function.update s.holder m (some (.handler h))) : s'.view.Sound := by
  apply hs.acquire hfree (others_handler hh hm) _ hl
  simp [view, taken, hh, ha]

theorem unlock_handler (hs : s.view.Sound) (hh : s'.handlers = Function.update s.handlers h a)
    (hm : s'.mover.taken = s.mover.taken) (ha : (s.handlers h).taken = m :: a.taken)
    (hnot : m ∉ a.taken) (hl : s'.holder = Function.update s.holder m none) : s'.view.Sound := by
  apply hs.release (others_handler hh hm) _ _ hl
  · simp [view, taken, hh, ha]
  · simpa [view, taken, hh] using hnot

omit [DecidableEq H] in
theorem lock_mover (hs : s.view.Sound) (hfree : s.holder m = none)
    (hh : s'.handlers = s.handlers) (ha : s'.mover.taken = m :: s.mover.taken)
    (hl : s'.holder = Function.update s.holder m (some .mover)) : s'.view.Sound :=
  hs.acquire hfree (others_mover hh) ha hl

omit [DecidableEq H] in
theorem unlock_mover (hs : s.view.Sound) (hh : s'.handlers = s.handlers)
    (ha : s.mover.taken = m :: s'.mover.taken) (hnot : m ∉ s'.mover.taken)
    (hl : s'.holder = Function.update s.holder m none) : s'.view.Sound :=
  hs.release (others_mover hh) ha hnot hl

end Sound

theorem Acts.sound (h : Acts s s') (hs : s.view.Sound) : s'.view.Sound := by
  cases h with
  | request h path ha => exact keep_handler hs rfl rfl (by rw [ha]; rfl) rfl
  | lockPathMap h path ha hm => exact lock_handler hs hm rfl rfl (by rw [ha]; rfl) rfl
  | miss h path ha hc => exact keep_handler hs rfl rfl (by rw [ha]; rfl) rfl
  | hit h path ha hc => exact keep_handler hs rfl rfl (by rw [ha]; rfl) rfl
  | lockData h path ha hm => exact lock_handler hs hm rfl rfl (by rw [ha]; rfl) rfl
  | push h path ha => exact keep_handler hs rfl rfl (by rw [ha]; rfl) rfl
  | signal h ha => exact keep_handler hs rfl (MoverAt.signalled_taken _) (by rw [ha]; rfl) rfl
  | unlockData h ha => exact unlock_handler hs rfl rfl (by rw [ha]; rfl) (by decide) rfl
  | unlockPathMap h ha => exact unlock_handler hs rfl rfl (by rw [ha]; rfl) (by decide) rfl
  | moverLockData ha hm =>
    obtain ha | ha := ha
    · exact lock_mover hs hm rfl (by rw [ha]; rfl) rfl
    · exact lock_mover hs hm rfl (by rw [ha]; rfl) rfl
  | sleep ha hq => exact unlock_mover hs rfl (by rw [ha]; rfl) (List.not_mem_nil) rfl
  | wake ha hq => exact keep_mover hs rfl (by rw [ha]; rfl) rfl
  | drain p rest ha hq => exact keep_mover hs rfl rfl rfl
  | drained ha hq => exact unlock_mover hs rfl (by rw [ha]; rfl) (List.not_mem_nil) rfl
  | finished ha hl => exact keep_mover hs rfl (by rw [ha]; rfl) rfl
  | copied filename ha hl => exact keep_mover hs rfl (by rw [ha]; rfl) rfl
  | failed ha hl => exact keep_mover hs rfl (by rw [ha]; rfl) rfl
  | moverLockPathMap filename ha hm => exact lock_mover hs hm rfl (by rw [ha]; rfl) rfl
  | publish filename p rest ha hl => exact keep_mover hs rfl (by rw [ha]; rfl) rfl
  | moverUnlockPathMap ha => exact unlock_mover hs rfl (by rw [ha]; rfl) (List.not_mem_nil) rfl
  | pop p rest ha hl => exact keep_mover hs rfl (by rw [ha]; rfl) rfl
  | spurious ha => exact keep_mover hs rfl (by rw [ha]; rfl) rfl

def Conserved (s : HandOff H) : Prop := s.pushed = s.processed ++ s.localList ++ s.dataQueue

theorem Acts.conserved (h : Acts s s') (hs : s.Conserved) : s'.Conserved := by
  unfold Conserved at *
  cases h with
  | push h path ha => simp [stand, hs]
  | drain p rest ha hq => simp [hs, hq]
  | pop p rest ha hl => simp [hs, hl]
  | _ => exact hs

/-- While the mover sleeps on a queue that is not empty, a handler is about to signal. -/
def Awake (s : HandOff H) : Prop :=
  s.mover = .asleep → s.dataQueue ≠ [] → ∃ h, s.handlers h = .signal

theorem Awake.handler (hs : s.Awake) {h : H} {a : HandlerAt} (ha : s.handlers h ≠ .signal)
    (hh : s'.handlers = Function.update s.handlers h a) (hm : s'.mover = s.mover)
    (hq : s'.dataQueue = s.dataQueue) : s'.Awake := by
  intro hsleep hne
  obtain ⟨k, hk⟩ := hs (hm ▸ hsleep) (hq ▸ hne)
  have hne : k ≠ h := fun he ↦ ha (he ▸ hk)
  exact ⟨k, by simp [hh, hne, hk]⟩

omit [DecidableEq H] in
theorem Awake.of_not_asleep (h : s.mover ≠ .asleep) : s.Awake := fun ha ↦ absurd ha h

theorem Acts.awake (h : Acts s s') (hs : s.Awake) : s'.Awake := by
  cases h with
  | request h path ha => exact hs.handler (by simp [ha]) rfl rfl rfl
  | lockPathMap h path ha hm => exact hs.handler (by simp [ha]) rfl rfl rfl
  | miss h path ha hc => exact hs.handler (by simp [ha]) rfl rfl rfl
  | hit h path ha hc => exact hs.handler (by simp [ha]) rfl rfl rfl
  | lockData h path ha hm => exact hs.handler (by simp [ha]) rfl rfl rfl
  | push h path ha =>
    intro _ _
    exact ⟨h, by simp [stand]⟩
  | signal h ha =>
    apply Awake.of_not_asleep
    show s.mover.signalled ≠ .asleep
    cases s.mover <;> simp [MoverAt.signalled]
  | unlockData h ha => exact hs.handler (by simp [ha]) rfl rfl rfl
  | unlockPathMap h ha => exact hs.handler (by simp [ha]) rfl rfl rfl
  | sleep ha hq =>
    intro _ hne
    exact absurd hq hne
  | drain p rest ha hq => exact .of_not_asleep (by simp [ha])
  | pop p rest ha hl => exact .of_not_asleep (by simp)
  | publish filename p rest ha hl => exact .of_not_asleep (by simp)
  | _ => exact .of_not_asleep (by simp)

/-- While the data mover is busy with an element, `local_list` has it in front. -/
def Loaded (s : HandOff H) : Prop := s.mover.loaded = true → s.localList ≠ []

theorem Acts.loaded (h : Acts s s') (hs : s.Loaded) : s'.Loaded := by
  unfold Loaded at *
  cases h with
  | signal h ha =>
    intro hl
    apply hs
    rwa [← MoverAt.signalled_loaded]
  | copied filename ha hl => exact fun _ ↦ hl
  | failed ha hl => exact fun _ ↦ hl
  | moverLockPathMap filename ha hm => exact fun _ ↦ hs (by rw [ha]; rfl)
  | publish filename p rest ha hl => exact fun _ ↦ hs (by rw [ha]; rfl)
  | moverUnlockPathMap ha => exact fun _ ↦ hs (by rw [ha]; rfl)
  | drain p rest ha hq => exact fun _ ↦ by simp
  | moverLockData ha hm => exact fun hl ↦ by cases hl
  | sleep ha hq => exact fun hl ↦ by cases hl
  | wake ha hq => exact fun hl ↦ by cases hl
  | drained ha hq => exact fun hl ↦ by cases hl
  | finished ha hl => exact fun hl ↦ by cases hl
  | pop p rest ha hl => exact fun hl ↦ by cases hl
  | spurious ha => exact fun hl ↦ by cases hl
  | _ => exact hs

def rank : Mutex → ℕ
  | .pathMap => 0
  | .data => 1

omit [DecidableEq H] in
/-- The handler nests `data_mutex` inside `path_map_mutex`; the mover never nests them. -/
theorem ordered (s : HandOff H) : s.view.Ordered rank := by
  intro t m hw k hk
  cases t with
  | handler h =>
    revert hw hk
    cases m <;> cases k <;> cases ha : s.handlers h <;>
      simp [view, taken, wanted, ha, HandlerAt.taken, HandlerAt.wanted, rank]
  | mover =>
    revert hw hk
    cases ha : s.mover <;> simp [view, taken, wanted, ha, MoverAt.taken, MoverAt.wanted]

structure Inv (s : HandOff H) : Prop where
  sound : s.view.Sound
  conserved : s.Conserved
  awake : s.Awake
  loaded : s.Loaded

omit [DecidableEq H] in
theorem inv_start (cache : PMap Path Path) : (start cache : HandOff H).Inv where
  sound := by
    intro t m
    cases t <;> simp [view, taken, start, HandlerAt.taken, MoverAt.taken]
  conserved := rfl
  awake := .of_not_asleep (by simp [start])
  loaded := fun hl ↦ by cases hl

theorem reach_inv {cache : PMap Path Path} (h : Reach step (fun _ _ ↦ True) (start cache) s) :
    s.Inv := by
  apply h.invariant Inv (inv_start cache)
  intro b l c hb _ hc
  have hacts := step_acts hc
  exact ⟨hacts.sound hb.sound, hacts.conserved hb.conserved, hacts.awake hb.awake,
    hacts.loaded hb.loaded⟩

/-- The hand-off to the data mover loses nothing and cannot deadlock, whatever the order
in which any number of handler threads and the mover take their steps. -/
theorem hand_off {cache : PMap Path Path} (h : Reach step (fun _ _ ↦ True) (start cache) s) :
    s.pushed = s.processed ++ s.localList ++ s.dataQueue ∧
      (∀ t, ¬Relation.TransGen s.view.Blocks t t) ∧
      (s.mover = .asleep → (∀ h, s.holder .data ≠ some (.handler h)) → s.dataQueue = []) := by
  have hi := reach_inv h
  refine ⟨hi.conserved, s.ordered.no_circle hi.sound, ?_⟩
  intro hsleep hleft
  by_contra hne
  obtain ⟨k, hk⟩ := hi.awake hsleep hne
  have htaken : Mutex.data ∈ s.taken (.handler k) := by simp [taken, hk, HandlerAt.taken]
  exact hleft k ((hi.sound _ _).mp htaken)

theorem hand_off_two : ∃ s : HandOff Bool,
    (s.pushed = [['a'], ['b']] ∧ s.localList = [['a']] ∧ s.mover = .lockPathMap ['n']) ∧
      s.pushed = s.processed ++ s.localList ++ s.dataQueue ∧
      (∀ t, ¬Relation.TransGen s.view.Blocks t t) ∧
      (s.mover = .asleep → (∀ h, s.holder .data ≠ some (.handler h)) → s.dataQueue = []) := by
  -- the mover sleeps, wakes for the first request and copies while the second one is pushed
  have hrun : ∃ s : HandOff Bool, Reach step (fun _ _ ↦ True) (start fun _ ↦ none) s ∧
      s.pushed = [['a'], ['b']] ∧ s.localList = [['a']] ∧ s.mover = .lockPathMap ['n'] :=
    Reach.exists_of_exec
      ([.mover, .mover, .request true ['a'], .request false ['b']] ++
        List.replicate 7 (.handler true) ++ List.replicate 4 .mover ++ [.copied ['n']] ++
        List.replicate 4 (.handler false))
      (by decide +kernel) (by decide +kernel)
  obtain ⟨s, hs, hp⟩ := hrun
  exact ⟨s, hp, hand_off hs⟩

section Progress

omit [DecidableEq H] in
theorem lock_isSome {t : Thread H} {m : Mutex} (hm : s.holder m = none) :
    (s.lock t m).isSome := by
  simp [lock, hm]

theorem handler_moves {h : H} (ha : s.handlers h ≠ .idle)
    (hfree : ∀ m, s.wanted (.handler h) = some m → s.holder m = none) :
    (s.step (.handler h)).isSome := by
  simp only [step, handlerStep]
  split
  case h_1 he => exact absurd he ha
  case h_2 path he =>
    rw [Option.isSome_map]
    exact lock_isSome (hfree .pathMap (by simp [wanted, he, HandlerAt.wanted]))
  case h_3 path he =>
    split
    · rfl
    · rfl
  case h_4 path he =>
    rw [Option.isSome_map]
    exact lock_isSome (hfree .data (by simp [wanted, he, HandlerAt.wanted]))
  case h_5 => rfl
  case h_6 => rfl
  case h_7 => rfl
  case h_8 => rfl

/-- Any step but the arrival of a request and a spurious wake-up. -/
def Progress (s : HandOff H) : Prop :=
  ∃ l, l ≠ .spurious ∧ (∀ h path, l ≠ .request h path) ∧ (s.step l).isSome

theorem progress_mover (h : s.moverStep.isSome) : s.Progress := ⟨.mover, by simp, by simp, h⟩

theorem copy_moves (ha : s.mover = .copy) : s.Progress := by
  cases hl : s.localList with
  | nil => exact progress_mover (by simp [moverStep, ha, hl])
  | cons p rest => exact ⟨.failed, by simp, by simp, by simp [step, ha, hl]⟩

theorem mover_moves (ha : s.mover ≠ .asleep) (hs : s.Loaded)
    (hfree : ∀ m, s.wanted .mover = some m → s.holder m = none) : s.Progress := by
  cases hm : s.mover with
  | asleep => exact absurd hm ha
  | copy => exact copy_moves hm
  | lockData | woken =>
    have hd := hfree .data (by simp [wanted, hm, MoverAt.wanted])
    exact progress_mover (by simp [moverStep, hm, lock_isSome hd])
  | lockPathMap filename =>
    have hd := hfree .pathMap (by simp [wanted, hm, MoverAt.wanted])
    exact progress_mover (by simp [moverStep, hm, lock_isSome hd])
  | testEmpty =>
    apply progress_mover
    simp only [moverStep, hm]
    split <;> rfl
  | drain =>
    apply progress_mover
    simp only [moverStep, hm]
    split <;> rfl
  | unlockPathMap => exact progress_mover (by simp [moverStep, hm])
  | publish filename | pop =>
    obtain ⟨p, rest, hl⟩ := List.exists_cons_of_ne_nil (hs (by rw [hm]; rfl))
    exact progress_mover (by simp [moverStep, hm, hl])

/-- A thread moves unless it has nothing to do or waits for a mutex that is taken. -/
theorem thread_moves {t : Thread H} (hs : s.Loaded) (hbusy : s.Busy t)
    (hfree : ∀ m, s.wanted t = some m → s.holder m = none) : s.Progress := by
  cases t with
  | handler h => exact ⟨.handler h, by simp, by simp, handler_moves hbusy hfree⟩
  | mover => exact mover_moves hbusy hs hfree

omit [DecidableEq H] in
theorem busy_of_taken {t : Thread H} {m : Mutex} (h : m ∈ s.taken t) : s.Busy t := by
  cases t with
  | handler k =>
    intro ha
    simp [taken, ha, HandlerAt.taken] at h
  | mover =>
    intro ha
    simp [taken, ha, MoverAt.taken] at h

/-- No deadlock: as long as a handler or the mover has something to do, some thread can
take its next step. -/
theorem some_thread_moves {cache : PMap Path Path}
    (h : Reach step (fun _ _ ↦ True) (start cache) s) {t : Thread H} (hbusy : s.Busy t) :
    s.Progress := by
  have hi := reach_inv h
  cases hd : s.holder .data with
  | some u =>
    have hu : Mutex.data ∈ s.taken u := (hi.sound u .data).mpr hd
    apply thread_moves hi.loaded (busy_of_taken hu)
    intro m hm
    have hr := s.ordered u m hm .data hu
    cases m <;> simp [rank] at hr
  | none =>
    cases hp : s.holder .pathMap with
    | some u =>
      have hu : Mutex.pathMap ∈ s.taken u := (hi.sound u .pathMap).mpr hp
      apply thread_moves hi.loaded (busy_of_taken hu)
      intro m hm
      have hr := s.ordered u m hm .pathMap hu
      cases m with
      | pathMap => simp [rank] at hr
      | data => exact hd
    | none =>
      apply thread_moves hi.loaded hbusy
      intro m _
      cases m with
      | pathMap => exact hp
      | data => exact hd

end Progress

end HandOff

end FTCache
