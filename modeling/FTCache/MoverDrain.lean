import FTCache.Courier
import FTCache.Library.Crowd

namespace FTCache

open Posix Runs Crowd

/-- The steps a handler still takes, with what they leave for the data mover to do. -/
def HandlerAt.owed : HandlerAt → ℕ
  | .idle => 0
  | .lockPathMap _ => 21
  | .find _ => 20
  | .lockData _ => 19
  | .push _ => 18
  | .signal => 5
  | .unlockData => 2
  | .unlockPathMap => 1

/-- The steps the data mover takes before it sleeps, once its lists are empty. -/
def MoverAt.owed : MoverAt → ℕ
  | .asleep => 0
  | .testEmpty => 1
  | .lockData => 2
  | .woken => 2
  | .pop => 1
  | .unlockPathMap => 2
  | .publish _ => 3
  | .lockPathMap _ => 4
  | .copy => 5
  | .drain => 6

def HandOffLabel.isRequest {H : Type*} : HandOffLabel H → Bool
  | .request _ _ => true
  | _ => false

def HandOffLabel.isSpurious {H : Type*} : HandOffLabel H → Bool
  | .spurious => true
  | _ => false

/-- What comes in from outside with a label: a close request, or a wake-up for nothing. -/
def HandOffLabel.pay {H : Type*} : HandOffLabel H → ℕ
  | .request _ _ => 22
  | .spurious => 3
  | _ => 0

theorem HandOffLabel.pay_sum {H : Type*} (ls : List (HandOffLabel H)) :
    (ls.map pay).sum = 22 * ls.countP isRequest + 3 * ls.countP isSpurious := by
  induction ls with
  | nil => rfl
  | cons l ls ih =>
    rw [List.map_cons, List.sum_cons, ih, List.countP_cons, List.countP_cons]
    cases l <;> simp [pay, isRequest, isSpurious] <;> omega

theorem MoverAt.signalled_owed (m : MoverAt) : m.signalled.owed ≤ m.owed + 2 := by
  cases m <;> simp [signalled, owed]

namespace HandOff

variable {H : Type*} [DecidableEq H] {s s' : HandOff H}

/-- What is left for the data mover: its turn, the paths it has taken, the paths that wait
and the turn in which it will fetch them. -/
def moverOwed (s : HandOff H) : ℕ :=
  s.mover.owed + 5 * s.localList.length + 6 * s.dataQueue.length +
    if s.mover = .drain ∨ s.dataQueue = [] then 0 else 6

omit [DecidableEq H] in
theorem moverOwed_signalled (s t : HandOff H) (hm : t.mover = s.mover.signalled)
    (hl : t.localList = s.localList) (hq : t.dataQueue = s.dataQueue) :
    t.moverOwed ≤ s.moverOwed + 2 := by
  have hs := s.mover.signalled_owed
  simp only [moverOwed, hm, hl, hq, MoverAt.signalled_drain]
  omega

omit [DecidableEq H] in
theorem moverOwed_push (s t : HandOff H) (path : Path) (hm : t.mover = s.mover)
    (hl : t.localList = s.localList) (hq : t.dataQueue = s.dataQueue ++ [path]) :
    t.moverOwed ≤ s.moverOwed + 12 := by
  simp only [moverOwed, hm, hl, hq, List.length_append, List.length_cons, List.length_nil]
  split <;> split <;> omega

section Steps

variable [Fintype H]

/-- A bound on the steps that are left when nothing more comes in. -/
def owed (s : HandOff H) : ℕ := total s.handlers HandlerAt.owed + s.moverOwed

theorem owed_handler {h : H} {a : HandlerAt} {d : ℕ}
    (hh : s'.handlers = Function.update s.handlers h a) (hm : s'.moverOwed ≤ s.moverOwed + d)
    (ha : a.owed + d + 1 ≤ (s.handlers h).owed) : s'.owed + 1 ≤ s.owed := by
  have ht := total_update s.handlers HandlerAt.owed h a
  simp only [owed, hh]
  omega

theorem handlerStep_owed {h : H} (hs : s.handlerStep h = some s') : s'.owed + 1 ≤ s.owed := by
  unfold handlerStep at hs
  split at hs
  case h_1 => cases hs
  case h_2 path ha =>
    obtain ⟨t, ht, rfl⟩ := Option.map_eq_some_iff.mp hs
    obtain ⟨-, rfl⟩ := lock_eq_some.mp ht
    exact owed_handler rfl (Nat.le_add_right _ 0) (by simp [ha, HandlerAt.owed])
  case h_3 path ha =>
    split at hs
    case isTrue =>
      cases hs
      exact owed_handler rfl (Nat.le_add_right _ 0) (by simp [ha, HandlerAt.owed])
    case isFalse =>
      cases hs
      exact owed_handler rfl (Nat.le_add_right _ 0) (by simp [ha, HandlerAt.owed])
  case h_4 path ha =>
    obtain ⟨t, ht, rfl⟩ := Option.map_eq_some_iff.mp hs
    obtain ⟨-, rfl⟩ := lock_eq_some.mp ht
    exact owed_handler rfl (Nat.le_add_right _ 0) (by simp [ha, HandlerAt.owed])
  case h_5 path ha =>
    cases hs
    exact owed_handler rfl (moverOwed_push s _ path rfl rfl rfl) (by simp [ha, HandlerAt.owed])
  case h_6 ha =>
    cases hs
    exact owed_handler rfl (moverOwed_signalled s _ rfl rfl rfl) (by simp [ha, HandlerAt.owed])
  case h_7 ha =>
    cases hs
    exact owed_handler rfl (Nat.le_add_right _ 0) (by simp [ha, HandlerAt.owed])
  case h_8 ha =>
    cases hs
    exact owed_handler rfl (Nat.le_add_right _ 0) (by simp [ha, HandlerAt.owed])

omit [DecidableEq H] in
theorem owed_mover (hh : s'.handlers = s.handlers) (hm : s'.moverOwed + 1 ≤ s.moverOwed) :
    s'.owed + 1 ≤ s.owed := by
  simp only [owed, hh]
  omega

omit [DecidableEq H] in
/-- A step of the mover outside its loop over `data_queue`. -/
theorem owed_turn {a b : MoverAt} (ha : s.mover = a) (hb : s'.mover = b)
    (hh : s'.handlers = s.handlers) (hq : s'.dataQueue = s.dataQueue)
    (hlt : b.owed + 5 * s'.localList.length + 1 ≤ a.owed + 5 * s.localList.length)
    (hna : a ≠ .drain) (hnb : b ≠ .drain) : s'.owed + 1 ≤ s.owed := by
  apply owed_mover hh
  simp only [moverOwed, ha, hb, hq, hna, hnb, false_or]
  omega

omit [DecidableEq H] in
theorem moverStep_owed (hs : s.moverStep = some s') : s'.owed + 1 ≤ s.owed := by
  unfold moverStep at hs
  split at hs
  case h_1 ha =>
    obtain ⟨t, ht, rfl⟩ := Option.map_eq_some_iff.mp hs
    obtain ⟨-, rfl⟩ := lock_eq_some.mp ht
    exact owed_turn ha rfl rfl rfl (by simp only [MoverAt.owed]; omega) (by decide) (by simp)
  case h_2 ha =>
    split at hs
    case isTrue =>
      cases hs
      exact owed_turn ha rfl rfl rfl (by simp only [MoverAt.owed, unlock]; omega) (by decide)
        (by simp)
    case isFalse hq =>
      cases hs
      refine owed_mover rfl ?_
      simp only [moverOwed, ha, hq, MoverAt.owed, reduceCtorEq, or_false, if_true, if_false]
      omega
  case h_3 => cases hs
  case h_4 ha =>
    obtain ⟨t, ht, rfl⟩ := Option.map_eq_some_iff.mp hs
    obtain ⟨-, rfl⟩ := lock_eq_some.mp ht
    exact owed_turn ha rfl rfl rfl (by simp only [MoverAt.owed]; omega) (by decide) (by simp)
  case h_5 ha =>
    split at hs
    case h_1 hq =>
      cases hs
      refine owed_mover rfl ?_
      simp only [moverOwed, unlock, ha, hq, MoverAt.owed, or_true, if_true]
      omega
    case h_2 p rest hq =>
      cases hs
      refine owed_mover rfl ?_
      simp only [moverOwed, ha, hq, true_or, if_true, List.length_cons, List.length_append,
        List.length_nil]
      omega
  case h_6 ha hl =>
    cases hs
    exact owed_turn ha rfl rfl rfl (by simp only [MoverAt.owed]; omega) (by decide) (by simp)
  case h_7 => cases hs
  case h_8 filename ha =>
    obtain ⟨t, ht, rfl⟩ := Option.map_eq_some_iff.mp hs
    obtain ⟨-, rfl⟩ := lock_eq_some.mp ht
    exact owed_turn ha rfl rfl rfl (by simp only [MoverAt.owed]; omega) (by simp) (by simp)
  case h_9 filename p rest ha hl =>
    cases hs
    exact owed_turn ha rfl rfl rfl (by simp only [MoverAt.owed]; omega) (by simp) (by simp)
  case h_10 ha =>
    cases hs
    exact owed_turn ha rfl rfl rfl (by simp only [MoverAt.owed, unlock]; omega) (by decide)
      (by simp)
  case h_11 p rest ha hl =>
    cases hs
    exact owed_turn ha rfl rfl rfl (by simp only [MoverAt.owed, hl, List.length_cons]; omega)
      (by decide) (by simp)
  case h_12 => cases hs

theorem step_owed {l : HandOffLabel H} (hs : s.step l = some s') :
    s'.owed + 1 ≤ s.owed + l.pay := by
  cases l with
  | request h path =>
    obtain ⟨ha, he⟩ := Option.ite_none_right_eq_some.mp hs
    cases he
    have ht := total_update s.handlers HandlerAt.owed h (.lockPathMap path)
    have hm : (s.stand h (.lockPathMap path)).moverOwed = s.moverOwed := rfl
    simp only [ha, HandlerAt.owed] at ht
    simp only [owed, hm, HandOffLabel.pay]
    simp only [stand]
    omega
  | handler h => exact handlerStep_owed hs
  | mover => exact moverStep_owed hs
  | copied filename =>
    obtain ⟨⟨ha, -⟩, he⟩ := Option.ite_none_right_eq_some.mp hs
    cases he
    exact owed_turn ha rfl rfl rfl (by simp only [MoverAt.owed]; omega) (by decide) (by simp)
  | failed =>
    obtain ⟨⟨ha, -⟩, he⟩ := Option.ite_none_right_eq_some.mp hs
    cases he
    exact owed_turn ha rfl rfl rfl (by simp only [MoverAt.owed]; omega) (by decide) (by simp)
  | spurious =>
    obtain ⟨ha, he⟩ := Option.ite_none_right_eq_some.mp hs
    cases he
    simp only [owed, moverOwed, ha, MoverAt.owed, HandOffLabel.pay, reduceCtorEq, false_or]
    omega

end Steps

/-- Nobody has anything left to do, and every path pushed has been copied or has failed. -/
structure Settled (s : HandOff H) : Prop where
  handlers : ∀ h, s.handlers h = .idle
  mover : s.mover = .asleep
  queue : s.dataQueue = [] ∧ s.localList = []
  processed : s.processed = s.pushed

theorem settled_of_not_progress {cache : PMap Path Path}
    (h : Reach step (fun _ _ ↦ True) (start cache) s) (hstuck : ¬s.Progress) : s.Settled := by
  have hidle (t : Thread H) : ¬s.Busy t := fun hb ↦ hstuck (some_thread_moves h hb)
  have hhandlers (k : H) : s.handlers k = .idle := not_not.mp (hidle (.handler k))
  have hmover : s.mover = .asleep := not_not.mp (hidle .mover)
  have hi := reach_inv h
  have hqueue : s.dataQueue = [] := by
    by_contra hne
    obtain ⟨k, hk⟩ := hi.awake hmover hne
    rw [hhandlers k] at hk
    cases hk
  have hlocal : s.localList = [] := (reach_handed h).emptied (by rw [hmover]; rfl)
  refine ⟨hhandlers, hmover, ⟨hqueue, hlocal⟩, ?_⟩
  have hc := hi.conserved
  rw [Conserved, hqueue, hlocal, List.append_nil, List.append_nil] at hc
  exact hc.symm

/-- The data mover always finishes: the steps of any run are bounded by the close requests
and the spurious wake-ups in it, and where no thread can go on everything pushed is done. -/
theorem mover_finishes [Fintype H] {cache : PMap Path Path} {ls : List (HandOffLabel H)}
    (h : exec step (start cache) ls = some s) :
    ls.length ≤ 2 + 22 * ls.countP HandOffLabel.isRequest +
        3 * ls.countP HandOffLabel.isSpurious ∧
      (s.Progress ∨ s.Settled) := by
  constructor
  · have hlen := exec_length_le (I := fun _ ↦ True) (fun _ _ _ _ hc ↦ ⟨trivial, step_owed hc⟩)
      trivial h
    have hstart : (start cache : HandOff H).owed = 2 := by
      simp [owed, moverOwed, start, total, HandlerAt.owed, MoverAt.owed]
    rw [hstart, HandOffLabel.pay_sum] at hlen
    omega
  · have hreach : Reach step (fun _ _ ↦ True) (start cache) s :=
      .of_exec h ((Along.iff_forall h).mpr fun _ _ ↦ trivial)
    by_cases hp : s.Progress
    · exact .inl hp
    · exact .inr (settled_of_not_progress hreach hp)

/-- Two close requests, the first copied and the second not, until the mover sleeps again. -/
def drainRun : List (HandOffLabel Bool) :=
  [.mover, .mover, .request true ['a'], .request false ['b']] ++
    List.replicate 7 (.handler true) ++ List.replicate 7 (.handler false) ++
    List.replicate 5 .mover ++ [.copied ['n']] ++ List.replicate 4 .mover ++ [.failed] ++
    List.replicate 4 .mover

theorem mover_finishes_two : ∃ s, exec step (start fun _ ↦ none) drainRun = some s ∧
    (s.mover = .asleep ∧ s.processed = [['a'], ['b']]) ∧
      drainRun.length ≤ 2 + 22 * drainRun.countP HandOffLabel.isRequest +
        3 * drainRun.countP HandOffLabel.isSpurious ∧ (s.Progress ∨ s.Settled) := by
  have hrun : (exec step (start fun _ ↦ none) drainRun).any (fun s ↦
      decide (s.mover = .asleep ∧ s.processed = [['a'], ['b']])) = true := by decide +kernel
  obtain ⟨s, hs, hp⟩ := (Option.any_eq_true _ _).mp hrun
  exact ⟨s, hs, of_decide_eq_true hp, mover_finishes hs⟩

end HandOff

end FTCache
