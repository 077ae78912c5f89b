import FTCache.CachedOnce
import FTCache.HandOff

namespace FTCache

open Posix Runs

/-- What the hand-off is for: a closed file that is not cached waits for the data mover,
which takes all that wait at once, and caches them in turn or gives them up. -/
structure Courier where
  waiting : List Path
  taken : List Path
  cache : PMap Path Path

inductive CourierLabel
  | close (path : Path)
  | take
  | publish (filename : Path)
  | giveUp

namespace Courier

def step (s : Courier) : CourierLabel → Option Courier
  | .close path =>
    if s.cache path = none then some { s with waiting := s.waiting ++ [path] } else some s
  | .take =>
    if s.taken = [] ∧ s.waiting ≠ [] then some { s with waiting := [], taken := s.waiting }
    else none
  | .publish filename =>
    match s.taken with
    | [] => none
    | p :: rest => some { s with taken := rest, cache := s.cache.insert p filename }
  | .giveUp =>
    match s.taken with
    | [] => none
    | _ :: rest => some { s with taken := rest }

variable {s s' : Courier}

/-- A cached path stays cached. -/
theorem step_cached {k : CourierLabel} (h : s.step k = some s') {p : Path}
    (hp : (s.cache p).isSome) : (s'.cache p).isSome := by
  cases k with
  | close path =>
    simp only [step] at h
    split at h
    · cases h
      exact hp
    · cases h
      exact hp
  | take =>
    obtain ⟨-, he⟩ := Option.ite_none_right_eq_some.mp h
    cases he
    exact hp
  | publish filename =>
    simp only [step] at h
    split at h
    · cases h
    case h_2 q rest ht =>
      cases h
      by_cases hq : p = q
      · simp [hq]
      · simpa [hq] using hp
  | giveUp =>
    simp only [step] at h
    split at h
    · cases h
    · cases h
      exact hp

theorem reach_cached (h : Reach step (fun _ _ ↦ True) s s') {p : Path}
    (hp : (s.cache p).isSome) : (s'.cache p).isSome :=
  h.invariant (fun t ↦ (t.cache p).isSome) hp fun _ _ _ hb _ hc ↦ step_cached hc hb

end Courier

/-- Where the mover has nothing of its own. -/
def MoverAt.resting : MoverAt → Bool
  | .lockData => true
  | .testEmpty => true
  | .asleep => true
  | .woken => true
  | _ => false

/-- The path a handler has not found in `path_cache_map` and has still to push. -/
def HandlerAt.missed : HandlerAt → Option Path
  | .lockData path => some path
  | .push path => some path
  | _ => none

theorem MoverAt.signalled_resting (m : MoverAt) : m.signalled.resting = m.resting := by
  cases m <;> rfl

theorem MoverAt.signalled_drain {m : MoverAt} : m.signalled = .drain ↔ m = .drain := by
  cases m <;> simp [MoverAt.signalled]

theorem HandlerAt.taken_of_missed {a : HandlerAt} {path : Path} (h : path ∈ a.missed) :
    Mutex.pathMap ∈ a.taken := by
  cases a <;> simp_all [HandlerAt.missed, HandlerAt.taken]

namespace HandOff

variable {H : Type*} [DecidableEq H] {s s' : HandOff H}

/-- What a handler has not found in `path_cache_map` stays out of it until it is pushed. -/
def Missed (s : HandOff H) : Prop :=
  ∀ h, ∀ path ∈ (s.handlers h).missed, s.pathCacheMap path = none

def Emptied (s : HandOff H) : Prop := s.mover.resting = true → s.localList = []

def Filled (s : HandOff H) : Prop := s.mover = .drain → s.localList ++ s.dataQueue ≠ []

theorem Missed.handler (hs : s.Missed) {h : H} {a : HandlerAt}
    (hh : s'.handlers = Function.update s.handlers h a) (hc : s'.pathCacheMap = s.pathCacheMap)
    (ha : ∀ path ∈ a.missed, s.pathCacheMap path = none) : s'.Missed := by
  intro k path hk
  rw [hc]
  by_cases he : k = h
  · subst he
    rw [hh, Function.update_self] at hk
    exact ha path hk
  · rw [hh, Function.update_of_ne he] at hk
    exact hs k path hk

omit [DecidableEq H] in
/-- The mover publishes under `path_map_mutex`, which such a handler would hold. -/
theorem Missed.none_of_publish (hv : s.view.Sound) {filename : Path}
    (ha : s.mover = .publish filename) (h : H) : (s.handlers h).missed = none := by
  rw [Option.eq_none_iff_forall_not_mem]
  intro path hp
  have hmover : s.holder .pathMap = some .mover :=
    (hv .mover .pathMap).mp (by simp [view, taken, ha, MoverAt.taken])
  have hhandler : s.holder .pathMap = some (.handler h) :=
    (hv (.handler h) .pathMap).mp (HandlerAt.taken_of_missed hp)
  rw [hmover] at hhandler
  cases hhandler

theorem Acts.missed (h : Acts s s') (hv : s.view.Sound) (hs : s.Missed) : s'.Missed := by
  cases h with
  | request h path ha => exact hs.handler rfl rfl (by simp [HandlerAt.missed])
  | lockPathMap h path ha hm => exact hs.handler rfl rfl (by simp [HandlerAt.missed])
  | miss h path ha hc => exact hs.handler rfl rfl (by simpa [HandlerAt.missed] using hc)
  | hit h path ha hc => exact hs.handler rfl rfl (by simp [HandlerAt.missed])
  | lockData h path ha hm =>
    have hc := hs h path (by simp [ha, HandlerAt.missed])
    exact hs.handler rfl rfl (by simpa [HandlerAt.missed] using hc)
  | push h path ha => exact hs.handler rfl rfl (by simp [HandlerAt.missed])
  | signal h ha => exact hs.handler rfl rfl (by simp [HandlerAt.missed])
  | unlockData h ha => exact hs.handler rfl rfl (by simp [HandlerAt.missed])
  | unlockPathMap h ha => exact hs.handler rfl rfl (by simp [HandlerAt.missed])
  | publish filename p rest ha hl =>
    intro k path hk
    have hnone := Missed.none_of_publish hv ha k
    rw [Option.mem_def, hnone] at hk
    cases hk
  | _ => exact hs

theorem Acts.emptied (h : Acts s s') (hs : s.Emptied) : s'.Emptied := by
  unfold Emptied at *
  cases h with
  | signal h ha =>
    intro hr
    apply hs
    rwa [← MoverAt.signalled_resting]
  | moverLockData ha hm =>
    intro _
    apply hs
    rcases ha with ha | ha <;> rw [ha] <;> rfl
  | sleep ha hq => exact fun _ ↦ hs (by rw [ha]; rfl)
  | spurious ha => exact fun _ ↦ hs (by rw [ha]; rfl)
  | finished ha hl => exact fun _ ↦ hl
  | drain p rest ha hq => exact fun hr ↦ by simp [ha, MoverAt.resting] at hr
  | wake ha hq => exact fun hr ↦ by cases hr
  | drained ha hq => exact fun hr ↦ by cases hr
  | copied filename ha hl => exact fun hr ↦ by cases hr
  | failed ha hl => exact fun hr ↦ by cases hr
  | moverLockPathMap filename ha hm => exact fun hr ↦ by cases hr
  | publish filename p rest ha hl => exact fun hr ↦ by cases hr
  | moverUnlockPathMap ha => exact fun hr ↦ by cases hr
  | pop p rest ha hl => exact fun hr ↦ by cases hr
  | _ => exact hs

theorem Acts.filled (h : Acts s s') (hs : s.Filled) : s'.Filled := by
  unfold Filled at *
  cases h with
  | push h path ha => exact fun _ ↦ by simp
  | signal h ha => exact fun hd ↦ hs (MoverAt.signalled_drain.mp hd)
  | wake ha hq => exact fun _ hnil ↦ hq (List.append_eq_nil_iff.mp hnil).2
  | drain p rest ha hq => exact fun _ ↦ by simp
  | moverLockData ha hm => exact fun hd ↦ by cases hd
  | sleep ha hq => exact fun hd ↦ by cases hd
  | drained ha hq => exact fun hd ↦ by cases hd
  | finished ha hl => exact fun hd ↦ by cases hd
  | copied filename ha hl => exact fun hd ↦ by cases hd
  | failed ha hl => exact fun hd ↦ by cases hd
  | moverLockPathMap filename ha hm => exact fun hd ↦ by cases hd
  | publish filename p rest ha hl => exact fun hd ↦ by cases hd
  | moverUnlockPathMap ha => exact fun hd ↦ by cases hd
  | pop p rest ha hl => exact fun hd ↦ by cases hd
  | spurious ha => exact fun hd ↦ by cases hd
  | _ => exact hs

/-- The hand-off without its locks. While the mover drains the queue nothing counts as taken,
and from its publication or failure on an element counts as done. -/
def courier (s : HandOff H) : Courier where
  waiting := if s.mover = .drain then s.localList ++ s.dataQueue else s.dataQueue
  taken :=
    match s.mover with
    | .drain => []
    | .unlockPathMap => s.localList.tail
    | .pop => s.localList.tail
    | _ => s.localList
  cache := s.pathCacheMap

theorem courier_push (s : HandOff H) (h : H) (path : Path) (hc : s.pathCacheMap path = none) :
    s.courier.step (.close path) = some (courier { s.stand h .signal with
      dataQueue := s.dataQueue ++ [path]
      pushed := s.pushed ++ [path] }) := by
  by_cases hd : s.mover = .drain
  · simp [Courier.step, courier, hc, stand, hd]
  · simp [Courier.step, courier, hc, stand, hd]

theorem courier_signal (s : HandOff H) (h : H) (a : HandlerAt) :
    courier { s.stand h a with mover := s.mover.signalled } = s.courier := by
  cases hm : s.mover <;> simp [courier, stand, MoverAt.signalled, hm]

structure Handed (s : HandOff H) : Prop where
  missed : s.Missed
  emptied : s.Emptied
  filled : s.Filled

theorem Acts.courier (h : Acts s s') (hs : s.Handed) :
    s'.courier = s.courier ∨ ∃ k, s.courier.step k = some s'.courier := by
  cases h with
  | push h path ha =>
    have hc := hs.missed h path (by simp [ha, HandlerAt.missed])
    exact .inr ⟨.close path, courier_push s h path hc⟩
  | signal h ha => exact .inl (courier_signal s h .unlockData)
  | moverLockData ha hm =>
    rcases ha with ha | ha <;> exact .inl (by simp [HandOff.courier, ha])
  | sleep ha hq => exact .inl (by simp [HandOff.courier, ha, unlock])
  | wake ha hq =>
    have hempty : s.localList = [] := hs.emptied (by rw [ha]; rfl)
    exact .inl (by simp [HandOff.courier, ha, hempty])
  | drain p rest ha hq => exact .inl (by simp [HandOff.courier, ha, hq])
  | drained ha hq =>
    have hne : s.localList ≠ [] := by simpa [hq] using hs.filled ha
    exact .inr ⟨.take, by simp [Courier.step, HandOff.courier, ha, hq, hne, unlock]⟩
  | finished ha hl => exact .inl (by simp [HandOff.courier, ha])
  | copied filename ha hl => exact .inl (by simp [HandOff.courier, ha])
  | failed ha hl =>
    obtain ⟨p, rest, he⟩ := List.exists_cons_of_ne_nil hl
    exact .inr ⟨.giveUp, by simp [Courier.step, HandOff.courier, ha, he]⟩
  | moverLockPathMap filename ha hm => exact .inl (by simp [HandOff.courier, ha])
  | publish filename p rest ha hl =>
    exact .inr ⟨.publish filename, by simp [Courier.step, HandOff.courier, ha, hl]⟩
  | moverUnlockPathMap ha => exact .inl (by simp [HandOff.courier, ha, unlock])
  | pop p rest ha hl => exact .inl (by simp [HandOff.courier, ha, hl])
  | spurious ha => exact .inl (by simp [HandOff.courier, ha])
  | _ => exact .inl rfl

theorem reach_handed {cache : PMap Path Path}
    (h : Reach step (fun _ _ ↦ True) (start cache) s) : s.Handed := by
  have hi : s.view.Sound ∧ s.Handed := by
    apply h.invariant fun t ↦ t.view.Sound ∧ t.Handed
    · have hmissed : (start cache : HandOff H).Missed := by simp [Missed, start, HandlerAt.missed]
      have hfilled : (start cache : HandOff H).Filled := by simp [Filled, start]
      exact ⟨(inv_start cache).sound, hmissed, fun _ ↦ rfl, hfilled⟩
    · intro b l c hb _ hc
      obtain ⟨hv, hh⟩ := hb
      have hacts := step_acts hc
      exact ⟨hacts.sound hv, hacts.missed hv hh.missed, hacts.emptied hh.emptied,
        hacts.filled hh.filled⟩
  exact hi.2

/-- Whatever the order in which the threads take their steps, the hand-off does what a
courier does that checks, pushes, takes and publishes in one piece. -/
theorem hand_off_refines {cache : PMap Path Path}
    (h : Reach step (fun _ _ ↦ True) (start cache) s) :
    Reach Courier.step (fun _ _ ↦ True) ⟨[], [], cache⟩ s.courier :=
  h.refines fun _ _ _ hb hc ↦ (step_acts hc).courier (reach_handed hb)

theorem hand_off_refines_pushed : ∃ s : HandOff Bool,
    (s.handlers true = .signal ∧ s.handlers false = .lockPathMap ['b']) ∧
      Reach Courier.step (fun _ _ ↦ True) ⟨[], [], fun _ ↦ none⟩ s.courier := by
  -- the one handler has pushed its path, and the other one waits for its first mutex
  have hrun : ∃ s : HandOff Bool, Reach step (fun _ _ ↦ True) (start fun _ ↦ none) s ∧
      s.handlers true = .signal ∧ s.handlers false = .lockPathMap ['b'] :=
    Reach.exists_of_exec
      ([.mover, .mover, .request true ['a'], .request false ['b']] ++
        List.replicate 4 (.handler true))
      (by decide +kernel) (by decide +kernel)
  obtain ⟨s, hs, hp⟩ := hrun
  exact ⟨s, hp, hand_off_refines hs⟩

/-- What has been cached is never pushed again. -/
theorem cached_kept {cache : PMap Path Path} (h : Reach step (fun _ _ ↦ True) (start cache) s)
    (h' : Reach step (fun _ _ ↦ True) s s') {p : Path} (hp : (s.pathCacheMap p).isSome) (k : H) :
    (s'.pathCacheMap p).isSome ∧ s'.handlers k ≠ .push p := by
  have hruns : Reach Courier.step (fun _ _ ↦ True) s.courier s'.courier :=
    h'.refines fun _ _ _ hb hc ↦ (step_acts hc).courier (reach_handed (h.trans hb))
  have hcached : (s'.pathCacheMap p).isSome := Courier.reach_cached hruns hp
  refine ⟨hcached, fun ha ↦ ?_⟩
  have hnone := (reach_handed (h.trans h')).missed k p (by simp [ha, HandlerAt.missed])
  simp [hnone] at hcached

theorem cached_kept_twice : ∃ s : HandOff Bool, s.handlers true = .unlockPathMap ∧
    (s.pathCacheMap ['a']).isSome ∧ s.handlers true ≠ .push ['a'] := by
  -- the file is closed and cached, and closed again
  have hrun : ∃ s : HandOff Bool, Reach step (fun _ _ ↦ True) (start fun _ ↦ none) s ∧
      (s.pathCacheMap ['a']).isSome ∧ s.handlers true = .unlockPathMap :=
    Reach.exists_of_exec
      ([.request true ['a']] ++ List.replicate 7 (.handler true) ++ List.replicate 4 .mover ++
        [.copied ['n']] ++ List.replicate 4 .mover ++ [.request true ['a']] ++
        List.replicate 2 (.handler true))
      (by decide +kernel) (by decide +kernel)
  obtain ⟨s, hs, hcached, hat⟩ := hrun
  exact ⟨s, hat, cached_kept hs .refl hcached true⟩

end HandOff

namespace Server

variable {srv s : Server}

def courier (srv : Server) : Courier := ⟨srv.dataQueue, srv.mover.localList, srv.pathCacheMap⟩

theorem handle_courier (srv : Server) (r : Request) (env : Env) :
    ((srv.handle r env).after srv).courier = srv.courier ∨
      ∃ k, srv.courier.step k = some ((srv.handle r env).after srv).courier := by
  obtain ⟨-, hcache, hmover⟩ := cacheView_eq (handle_view srv r env)
  have hqueue := CachedOnce.handle_queue srv r env
  cases hp : CachedOnce.pushed srv env r with
  | none =>
    left
    simp [courier, hcache, hmover, hqueue, hp]
  | some path =>
    right
    refine ⟨.close path, ?_⟩
    have hnone : srv.pathCacheMap path = none := CachedOnce.uncached_of_pushed hp
    simp [Courier.step, courier, hcache, hmover, hqueue, hp, hnone]

theorem Moves.courier (h : Moves srv s) :
    s.courier = srv.courier ∨ ∃ k, srv.courier.step k = some s.courier := by
  cases h with
  | take hp hl =>
    by_cases hq : srv.dataQueue = []
    · exact .inl (by simp [Server.courier, hl, hq])
    · exact .inr ⟨.take, by simp [Courier.step, Server.courier, hl, hq]⟩
  | mkdtemp newdir p rest hp hl => exact .inl rfl
  | copyBegin p filename rest b n hp hl hb hf => exact .inl rfl
  | copyEnd p filename rest b hp hl hb => exact .inl rfl
  | copyFail filename hp =>
    cases hl : srv.mover.localList with
    | nil => exact .inl (by simp [Server.courier, Server.copyFail, hl])
    | cons p rest =>
      exact .inr ⟨.giveUp, by simp [Courier.step, Server.courier, Server.copyFail, hl]⟩
  | publish p filename rest hp hl =>
    exact .inr ⟨.publish filename, by simp [Courier.step, Server.courier, Server.publish, hl]⟩

theorem step_courier {l : ServerLabel} (h : srv.step l = some s) :
    s.courier = srv.courier ∨ ∃ k, srv.courier.step k = some s.courier := by
  obtain ⟨r, env, -, rfl⟩ | ⟨m, -, hm⟩ := step_cases h
  · exact handle_courier srv r env
  · exact hm.courier

/-- So does a server that handles its requests and its mover's steps one after another. -/
theorem server_refines {ok : Server → ServerLabel → Prop} (h : Reach Server.step ok srv s) :
    Reach Courier.step (fun _ _ ↦ True) srv.courier s.courier :=
  h.refines fun _ _ _ _ hc ↦ step_courier hc

end Server

end FTCache
