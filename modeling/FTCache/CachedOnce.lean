import FTCache.DataMover

namespace FTCache.CachedOnce

open Runs Server

/-- The paths the data mover has still to do, the one being copied among them. -/
def waiting (srv : Server) : List Path := srv.mover.localList ++ srv.dataQueue

/-- No path waits twice, and none waits that has been cached. -/
structure Once (srv : Server) : Prop where
  nodup : (waiting srv).Nodup
  uncached : ∀ p ∈ waiting srv, srv.pathCacheMap p = none

/-- The path of the descriptor that a request closes; that of an unknown one is empty. -/
def closed (srv : Server) : ServerLabel → Option Path
  | .request (.closeRpc inp) env =>
    if (srv.fds inp.fd).isSome ∧ env.closed then some (srv.fdToPath.index inp.fd) else none
  | _ => none

/-- The path that the data mover is done with, published or given up. -/
def finished (srv : Server) : ServerLabel → Option Path
  | .mover .publish => srv.mover.localList.head?
  | .mover .copyFail => srv.mover.localList.head?
  | _ => none

/-- A server with a history variable: the paths that were closed when they were not cached
and that the data mover has not been done with since. -/
structure Diary where
  server : Server
  unfinished : List Path := []

/-- A path that is closed when it is not cached is noted, and struck out when it is done with. -/
def Diary.note (d : Diary) (l : ServerLabel) : List Path :=
  (match finished d.server l with
    | none => d.unfinished
    | some p => d.unfinished.erase p) ++
  ((closed d.server l).filter (d.server.pathCacheMap · = none)).toList

def Diary.step (d : Diary) (l : ServerLabel) : Option Diary :=
  (d.server.step l).map fun s ↦ ⟨s, d.note l⟩

/-- A path that is not cached is closed only when the data mover is done with its last close. -/
def Spaced (d : Diary) (l : ServerLabel) : Prop :=
  ∀ p ∈ closed d.server l, d.server.pathCacheMap p = none → p ∉ d.unfinished

instance (d : Diary) (l : ServerLabel) : Decidable (Spaced d l) :=
  inferInstanceAs (Decidable (∀ p ∈ closed d.server l,
    d.server.pathCacheMap p = none → p ∉ d.unfinished))

/-- The path that the handler of a request puts on `data_queue`. -/
def pushed (srv : Server) (env : Env) : Request → Option Path
  | .closeRpc inp =>
    if ((srv.fds inp.fd).isSome ∧ env.closed) ∧ srv.pathCacheMap (srv.fdToPath.index inp.fd) = none
    then some (srv.fdToPath.index inp.fd)
    else none
  | _ => none

/-- A file whose path is not cached yet is closed only while it does not wait either. -/
def Fresh (srv : Server) : ServerLabel → Prop
  | .request (.closeRpc inp) env =>
    (srv.fds inp.fd).isSome ∧ env.closed →
      srv.pathCacheMap (srv.fdToPath.index inp.fd) = none →
        srv.fdToPath.index inp.fd ∉ waiting srv
  | _ => True

variable {srv s : Server}

theorem fresh_iff {r : Request} {env : Env} :
    Fresh srv (.request r env) ↔ ∀ p ∈ pushed srv env r, p ∉ waiting srv := by
  cases r with
  | closeRpc inp =>
    simp only [Fresh, pushed, Option.mem_def]
    constructor
    · intro h p hp
      split at hp
      case isTrue hg =>
        cases hp
        exact h hg.1 hg.2
      case isFalse => cases hp
    · intro h hopen hnone
      exact h _ (by rw [if_pos ⟨hopen, hnone⟩])
  | openRpc inp => simp [Fresh, pushed]
  | baseRpc inp => simp [Fresh, pushed]
  | seekRpc inp => simp [Fresh, pushed]

theorem startTransfer_queue {srv srv₀ : Server} (inp : RpcIn) (r : Option Bytes)
    (h : srv.dataQueue = srv₀.dataQueue) :
    ((startTransfer srv inp r).after srv₀).dataQueue = srv₀.dataQueue := by
  simp only [startTransfer]
  split
  · exact h
  · rfl

/-- Only a close request adds to the queue. -/
theorem handle_queue (srv : Server) (r : Request) (env : Env) :
    ((srv.handle r env).after srv).dataQueue = srv.dataQueue ++ (pushed srv env r).toList := by
  cases r with
  | openRpc inp => simp [pushed, handle, ftcOpenRpcHandler, Handled.after]
  | seekRpc inp => simp [pushed, handle, ftcSeekRpcHandler, Handled.after]
  | closeRpc inp =>
    simp only [handle, ftcCloseRpcHandler, pushed]
    split
    case isTrue hg =>
      by_cases hc : srv.pathCacheMap (srv.fdToPath.index inp.fd) = none
      · simp [Handled.after, hg, hc]
      · simp [Handled.after, hc]
    case isFalse hg => simp [Handled.after, hg]
  | baseRpc inp =>
    rw [show pushed srv env (.baseRpc inp) = none from rfl, Option.toList_none, List.append_nil]
    simp only [handle, ftcRpcHandler]
    split
    · split
      · exact startTransfer_queue inp _ rfl
      · split
        · rfl
        · exact startTransfer_queue inp _ rfl
    · rfl

theorem uncached_of_pushed {r : Request} {env : Env} {p : Path} (h : pushed srv env r = some p) :
    srv.pathCacheMap p = none := by
  cases r with
  | closeRpc inp =>
    simp only [pushed] at h
    split at h
    case isTrue hg =>
      cases h
      exact hg.2
    case isFalse => cases h
  | openRpc inp => cases h
  | baseRpc inp => cases h
  | seekRpc inp => cases h

theorem handle_waiting (srv : Server) (r : Request) (env : Env) :
    waiting ((srv.handle r env).after srv) = waiting srv ++ (pushed srv env r).toList := by
  obtain ⟨-, -, hmover⟩ := cacheView_eq (handle_view srv r env)
  rw [waiting, hmover, handle_queue, ← List.append_assoc, waiting]

theorem start_once (files : Path → Option Bytes) (own : Posix.Table Path) :
    Once (start files own) :=
  ⟨List.nodup_nil, by simp [waiting, start]⟩

theorem request_once_iff (h : Once srv) (r : Request) (env : Env) :
    Once ((srv.handle r env).after srv) ↔ Fresh srv (.request r env) := by
  obtain ⟨-, hcache, -⟩ := cacheView_eq (handle_view srv r env)
  have hwaiting := handle_waiting srv r env
  rw [fresh_iff]
  constructor
  · intro ho p hp hwait
    have hnodup := ho.nodup
    rw [hwaiting, List.nodup_append] at hnodup
    exact hnodup.2.2 p hwait p (Option.mem_toList.mpr hp) rfl
  · intro hfresh
    refine ⟨?_, fun p hp ↦ ?_⟩
    · rw [hwaiting, List.nodup_append]
      refine ⟨h.nodup, by cases pushed srv env r <;> simp, fun p hp q hq he ↦ ?_⟩
      exact hfresh q (Option.mem_toList.mp hq) (he ▸ hp)
    · rw [hwaiting, List.mem_append] at hp
      rw [hcache]
      rcases hp with hp | hp
      · exact h.uncached p hp
      · exact uncached_of_pushed (Option.mem_toList.mp hp)

theorem moves_once (h : Once srv) (hm : Moves srv s) : Once s := by
  cases hm with
  | take hp hl =>
    constructor
    · simpa [waiting, hl] using h.nodup
    · simpa [waiting, hl] using h.uncached
  | mkdtemp newdir p rest hp hl => exact ⟨h.nodup, h.uncached⟩
  | copyBegin p f rest b n hp hl hb hf => exact ⟨h.nodup, h.uncached⟩
  | copyEnd p f rest b hp hl hb => exact ⟨h.nodup, h.uncached⟩
  | copyFail =>
    have hsub : (waiting srv.copyFail).Sublist (waiting srv) :=
      (List.tail_sublist _).append (List.Sublist.refl _)
    exact ⟨h.nodup.sublist hsub, fun p hp ↦ h.uncached p (hsub.subset hp)⟩
  | publish p f rest hp hl =>
    have hnodup := h.nodup
    rw [waiting, hl, List.cons_append, List.nodup_cons] at hnodup
    have hrest : waiting (srv.publish p f) = rest ++ srv.dataQueue := by
      simp [waiting, Server.publish, hl]
    refine ⟨hrest ▸ hnodup.2, fun q hq ↦ ?_⟩
    rw [hrest] at hq
    have hne : q ≠ p := by
      intro he
      subst he
      exact hnodup.1 hq
    have hold := h.uncached q (by rw [waiting, hl]; exact List.mem_cons_of_mem p hq)
    simpa [Server.publish, hne] using hold

theorem step_once_iff {l : ServerLabel} (h : Once srv) (hs : srv.step l = some s) :
    Once s ↔ Fresh srv l := by
  obtain ⟨r, env, rfl, rfl⟩ | ⟨m, rfl, hm⟩ := step_cases hs
  · exact request_once_iff h r env
  · exact iff_of_true (moves_once h hm) trivial

/-- The sources of the copies that were completed, each of them once, are the
cached paths and the one about to be published. -/
structure CopiedOnce (srv : Server) : Prop where
  nodup : (srv.mover.copies.map Prod.fst).Nodup
  done : ∀ p ∈ srv.mover.copies.map Prod.fst, (srv.pathCacheMap p).isSome ∨
    ∃ f rest, srv.mover.phase = .copied f ∧ srv.mover.localList = p :: rest

theorem start_copiedOnce (files : Path → Option Bytes) (own : Posix.Table Path) :
    CopiedOnce (start files own) :=
  ⟨List.nodup_nil, by simp [start]⟩

theorem CopiedOnce.of_view (h : CopiedOnce srv) (hv : s.cacheView = srv.cacheView) :
    CopiedOnce s := by
  obtain ⟨-, hc, hm⟩ := cacheView_eq hv
  constructor
  · simpa only [hm] using h.nodup
  · simpa only [hm, hc] using h.done

theorem CopiedOnce.cached (h : CopiedOnce srv) (hphase : ∀ f, srv.mover.phase ≠ .copied f)
    {p : Path} (hp : p ∈ srv.mover.copies.map Prod.fst) : (srv.pathCacheMap p).isSome := by
  rcases h.done p hp with hc | ⟨f, rest, hf, -⟩
  · exact hc
  · exact absurd hf (hphase f)

theorem moves_copiedOnce (ho : Once srv) (h : CopiedOnce srv) (hm : Moves srv s) :
    CopiedOnce s := by
  cases hm with
  | take hp hl => exact ⟨h.nodup, fun q hq ↦ .inl (h.cached (by simp [hp]) hq)⟩
  | mkdtemp newdir p rest hp hl => exact ⟨h.nodup, fun q hq ↦ .inl (h.cached (by simp [hp]) hq)⟩
  | copyBegin p f rest b n hp hl hb hf =>
    exact ⟨h.nodup, fun q hq ↦ .inl (h.cached (by simp [hp]) hq)⟩
  | copyEnd p f rest b hp hl hb =>
    have hcached {q : Path} (hq : q ∈ srv.mover.copies.map Prod.fst) := h.cached (by simp [hp]) hq
    constructor
    · rw [List.map_append, List.nodup_append]
      refine ⟨h.nodup, by simp, fun q hq q' hq' he ↦ ?_⟩
      -- the path being copied is not cached
      obtain rfl : q' = p := by simpa using hq'
      have hnone := ho.uncached q' (by simp [waiting, hl])
      simpa [he, hnone] using hcached hq
    · intro q hq
      rw [List.map_append, List.mem_append] at hq
      rcases hq with hq | hq
      · exact .inl (hcached hq)
      · obtain rfl : q = p := by simpa using hq
        exact .inr ⟨f, rest, rfl, hl⟩
  | copyFail f hp =>
    refine ⟨h.nodup, fun q hq ↦ .inl (h.cached (fun f' hf' ↦ ?_) hq)⟩
    simp [hf'] at hp
  | publish p f rest hp hl =>
    refine ⟨h.nodup, fun q hq ↦ .inl ?_⟩
    by_cases hqp : q = p
    · simp [Server.publish, hqp]
    · rcases h.done q hq with hc | ⟨f', rest', -, hl'⟩
      · simpa [Server.publish, hqp] using hc
      · rw [hl] at hl'
        obtain ⟨rfl, -⟩ := List.cons.inj hl'
        exact absurd rfl hqp

theorem step_copiedOnce {l : ServerLabel} (ho : Once srv) (h : CopiedOnce srv)
    (hs : srv.step l = some s) : CopiedOnce s := by
  obtain ⟨r, env, rfl, rfl⟩ | ⟨m, rfl, hm⟩ := step_cases hs
  · exact h.of_view (handle_view srv r env)
  · exact moves_copiedOnce ho h hm

theorem step_entry_kept {l : ServerLabel} (ho : Once srv) (hs : srv.step l = some s) {p q : Path}
    (hc : srv.pathCacheMap p = some q) : s.pathCacheMap p = some q := by
  obtain ⟨r, env, rfl, rfl⟩ | ⟨m, rfl, hm⟩ := step_cases hs
  · rwa [(cacheView_eq (handle_view srv r env)).2.1]
  · cases hm with
    | take | mkdtemp | copyBegin | copyEnd | copyFail => exact hc
    | publish p' f rest hp hl =>
      have hnone := ho.uncached p' (by simp [waiting, hl])
      have hne : p ≠ p' := by
        intro he
        subst he
        simp [hc] at hnone
      simpa [Server.publish, hne] using hc

theorem reach_once (h : Reach Server.step Fresh srv s) (ho : Once srv) (hc : CopiedOnce srv) :
    Once s ∧ CopiedOnce s :=
  h.invariant (fun s ↦ Once s ∧ CopiedOnce s) ⟨ho, hc⟩ fun _ _ _ hb hl hs ↦
    ⟨(step_once_iff hb.1 hs).mpr hl, step_copiedOnce hb.1 hb.2 hs⟩

theorem reach_entry_kept (h : Reach Server.step Fresh srv s) (ho : Once srv) (hc : CopiedOnce srv)
    {p q : Path} (hp : srv.pathCacheMap p = some q) : s.pathCacheMap p = some q := by
  induction h with
  | refl => exact hp
  | tail h _ hs ih => exact step_entry_kept (reach_once h ho hc).1 hs ih

section Diary

variable {d d' : Diary}

theorem pushed_eq (srv : Server) (r : Request) (env : Env) :
    pushed srv env r = (closed srv (.request r env)).filter (srv.pathCacheMap · = none) := by
  cases r with
  | closeRpc inp =>
    by_cases hopen : (srv.fds inp.fd).isSome ∧ env.closed
    · simp only [pushed, closed, hopen, true_and, if_true, Option.filter_some, decide_eq_true_eq]
    · simp [pushed, closed, hopen]
  | openRpc inp => rfl
  | baseRpc inp => rfl
  | seekRpc inp => rfl

theorem moverStep_waiting {m : MoverStep} (h : srv.moverStep m = some s) :
    waiting s = match finished srv (.mover m) with
      | none => waiting srv
      | some p => (waiting srv).erase p := by
  unfold moverStep at h
  split at h
  case h_1 hp hl =>
    split at h
    · cases h
    · cases h
      simp [waiting, finished, hl]
  case h_2 newdir p rest hp hl =>
    cases h
    rfl
  case h_3 n f p rest hp hl =>
    unfold Server.copyBegin at h
    split at h
    · cases h
      rfl
    · cases h
  case h_4 f p rest hp hl =>
    obtain ⟨b, hb, rfl⟩ := Option.map_eq_some_iff.mp h
    rfl
  case h_5 f p rest hp hl =>
    cases h
    simp [waiting, finished, copyFail, hl]
  case h_6 f p rest hp hl =>
    cases h
    simp [waiting, finished, copyFail, hl]
  case h_7 f p rest hp hl =>
    cases h
    simp [waiting, finished, Server.publish, hl]
  case h_8 => cases h

/-- What waits is what has been closed and not been done with. -/
theorem step_unfinished {l : ServerLabel} (hd : d.unfinished = waiting d.server)
    (hs : d.step l = some d') : d'.unfinished = waiting d'.server := by
  obtain ⟨s, hstep, rfl⟩ := Option.map_eq_some_iff.mp hs
  simp only [Diary.note, hd]
  cases l with
  | request r env =>
    obtain ⟨r, env, he, rfl⟩ | ⟨m, he, -⟩ := step_cases hstep
    · cases he
      rw [handle_waiting, pushed_eq]
      rfl
    · cases he
  | mover m =>
    simp only [Server.step] at hstep
    split at hstep
    case isTrue => cases hstep
    case isFalse =>
      rw [moverStep_waiting hstep]
      simp [closed]

theorem spaced_iff_fresh (hd : d.unfinished = waiting d.server) (l : ServerLabel) :
    Spaced d l ↔ Fresh d.server l := by
  cases l with
  | mover m => simp [Spaced, Fresh, closed]
  | request r env =>
    rw [fresh_iff, pushed_eq, Spaced, hd]
    simp only [Option.mem_def, Option.filter_eq_some_iff, decide_eq_true_eq, and_imp]

theorem along_spaced_iff (srv : Server) (hidle : waiting srv = []) (ls : List ServerLabel) :
    Along Diary.step Spaced ⟨srv, []⟩ ls ↔ Along Server.step Fresh srv ls := by
  refine (Along.congr (fun d l hd ↦ spaced_iff_fresh hd l) (fun d l d' ↦ step_unfinished)
    hidle.symm).trans ?_
  exact Along.map_iff (f := Diary.server) fun d l ↦ by simp [Diary.step, Function.comp_def]

end Diary

/-- No path waits twice or waits when it is cached, in any state of a run, if and only if
between two closes of a file that is not cached the data mover is done with it. Then each
path is copied once, and its entry stays as it was published. -/
theorem files_cached_once (files : Path → Option Bytes) (own : Posix.Table Path)
    (ls : List ServerLabel) (srv : Server) (h : exec Server.step (start files own) ls = some srv) :
    (Along Server.step (fun a l ↦ ∀ b ∈ a.step l, Once b) (start files own) ls ↔
      Along Diary.step Spaced ⟨start files own, []⟩ ls) ∧
    (Along Diary.step Spaced ⟨start files own, []⟩ ls →
      (srv.mover.copies.map Prod.fst).Nodup ∧
        ∀ ls' srv', exec Server.step srv ls' = some srv' →
          Along Diary.step Spaced ⟨start files own, []⟩ (ls ++ ls') → ∀ p q,
            srv.pathCacheMap p = some q → srv'.pathCacheMap p = some q) := by
  have hstart := start_once files own
  have hspaced := along_spaced_iff (start files own) rfl
  rw [hspaced ls]
  refine ⟨Along.iff_of_step (fun a l b ho hs ↦ step_once_iff ho hs) hstart h, fun hfresh ↦ ?_⟩
  obtain ⟨ho, hc⟩ := reach_once (.of_exec h hfresh) hstart (start_copiedOnce files own)
  refine ⟨hc.nodup, fun ls' srv' h' hall p q hp ↦ ?_⟩
  exact reach_entry_kept (.of_exec h' (((hspaced _).mp hall).of_append h)) ho hc hp

/-- A file that two clients have opened is closed again when it has been cached. -/
theorem files_cached_once_closed_twice :
    ∃ srv : Server, srv.mover.copies = [(samplePath, ['/', 'n', '/', 'f'])] ∧
      (srv.mover.copies.map Prod.fst).Nodup := by
  let ls : List ServerLabel := [.request (.openRpc ⟨samplePath, 3⟩) { opened := some 7 },
    .request (.openRpc ⟨samplePath, 3⟩) { opened := some 8 }, .request (.closeRpc ⟨7⟩) {},
    .mover .take, .mover (.mkdtemp ['/', 'n']), .mover (.copyBegin 1), .mover .copyEnd,
    .mover .publish, .request (.closeRpc ⟨8⟩) {}]
  obtain ⟨srv, hsrv, hcopies⟩ := (Option.any_eq_true
    (fun srv : Server ↦ decide (srv.mover.copies = [(samplePath, ['/', 'n', '/', 'f'])]))
    (exec Server.step (start sampleConfig.files fun _ ↦ none) ls)).mp (by decide +kernel)
  have hall := (files_cached_once _ _ ls srv hsrv).2 (by decide +kernel)
  exact ⟨srv, by simpa using hcopies, hall.1⟩

/-- The second client closes the file while the first close still waits. -/
theorem files_not_cached_once :
    ¬∀ srv : Server, Reach Server.step (fun _ _ ↦ True)
      (start sampleConfig.files fun _ ↦ none) srv → Once srv := by
  intro h
  obtain ⟨srv, hreach, hqueue⟩ : ∃ srv, Reach Server.step (fun _ _ ↦ True)
      (start sampleConfig.files fun _ ↦ none) srv ∧ waiting srv = [samplePath, samplePath] :=
    Reach.exists_of_exec [.request (.openRpc ⟨samplePath, 3⟩) { opened := some 7 },
      .request (.openRpc ⟨samplePath, 3⟩) { opened := some 8 }, .request (.closeRpc ⟨7⟩) {},
      .request (.closeRpc ⟨8⟩) {}] (by decide +kernel) (by decide +kernel)
  have hnodup := (h srv hreach).nodup
  rw [hqueue] at hnodup
  exact absurd hnodup (by decide)

end FTCache.CachedOnce
