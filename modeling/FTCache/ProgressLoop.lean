import FTCache.Library.Runs

/-! The progress thread of a process; what Mercury returns to it, and when the shutdown comes,
is left open. -/

namespace FTCache.ProgressLoop

open Runs

/-- Where `ftc_progress_fn` stands. `inner` is the test of its do-while loop, with whether `ret`
is `HG_SUCCESS` and with `actual_count`. -/
inductive Place
  | outer
  | trigger
  | inner (success : Bool) (actualCount : ℕ)
  | ifProgress
  | progress
  | finished
  deriving DecidableEq

/-- A call of Mercury: `HG_Trigger` for one callback, with what it left in `ret` and
`actual_count`, or `HG_Progress`. -/
inductive Made
  | trigger (success : Bool) (actualCount : ℕ)
  | progress
  deriving DecidableEq

/-- `made` is a history variable: the calls of Mercury so far. -/
structure Loop where
  place : Place := .outer
  shutdown : Bool := false
  made : List Made := []
  deriving DecidableEq

/-- `thread` is a step of the progress thread. It has what Mercury leaves in `ret` and
`actual_count`, should the step be a call of `HG_Trigger`. -/
inductive Label
  | shutdown
  | thread (success : Bool) (actualCount : ℕ)
  deriving DecidableEq

def Label.isThread : Label → Bool
  | .thread _ _ => true
  | .shutdown => false

namespace Loop

variable (s : Loop)

def threadStep (success : Bool) (actualCount : ℕ) : Option Loop :=
  match s.place with
  | .outer => some { s with place := if s.shutdown then .finished else .trigger }
  | .trigger => some { s with
      place := .inner success actualCount
      made := s.made ++ [.trigger success actualCount] }
  | .inner success actualCount =>
    some { s with
      place := if success && actualCount ≠ 0 && !s.shutdown then .trigger else .ifProgress }
  | .ifProgress => some { s with place := if s.shutdown then .outer else .progress }
  | .progress => some { s with place := .outer, made := s.made ++ [.progress] }
  | .finished => none

def step (s : Loop) : Label → Option Loop
  -- ftc_shutdown_comm
  | .shutdown => some { s with shutdown := true }
  | .thread success actualCount => s.threadStep success actualCount

end Loop

def start : Loop := {}

/-- Steps that are left to the thread once the flag is set. -/
def Place.left : Place → ℕ
  | .outer => 1
  | .trigger => 4
  | .inner _ _ => 3
  | .ifProgress => 2
  | .progress => 2
  | .finished => 0

/-- Calls of Mercury that are left to the thread once the flag is set. -/
def Place.calls : Place → ℕ
  | .trigger => 1
  | .progress => 1
  | _ => 0

/-- The last call is one of `HG_Trigger` that has failed or has run no callback. -/
def Idle (made : List Made) : Prop :=
  ∃ earlier success actualCount, made = earlier ++ [.trigger success actualCount] ∧
    (success = false ∨ actualCount = 0)

/-- Each call of `HG_Progress` comes directly after a call of `HG_Trigger` that has failed
or has run no callback. -/
def Paced (made : List Made) : Prop :=
  ∀ before after, made = before ++ .progress :: after → Idle before

variable {s s' : Loop} {l : Label}

inductive Steps (s : Loop) : Label → Loop → Prop
  | shutdown : Steps s .shutdown { s with shutdown := true }
  | outer (ok : Bool) (n : ℕ) (hp : s.place = .outer) :
      Steps s (.thread ok n) { s with place := if s.shutdown then .finished else .trigger }
  | trigger (ok : Bool) (n : ℕ) (hp : s.place = .trigger) :
      Steps s (.thread ok n) { s with place := .inner ok n, made := s.made ++ [.trigger ok n] }
  | again (ok' : Bool) (n' : ℕ) (ok : Bool) (n : ℕ) (hp : s.place = .inner ok n) (hok : ok = true)
      (hn : n ≠ 0) (hs : s.shutdown = false) :
      Steps s (.thread ok' n') { s with place := .trigger }
  | leave (ok' : Bool) (n' : ℕ) (ok : Bool) (n : ℕ) (hp : s.place = .inner ok n)
      (hend : (ok = false ∨ n = 0) ∨ s.shutdown = true) :
      Steps s (.thread ok' n') { s with place := .ifProgress }
  | ifProgress (ok : Bool) (n : ℕ) (hp : s.place = .ifProgress) :
      Steps s (.thread ok n) { s with place := if s.shutdown then .outer else .progress }
  | progress (ok : Bool) (n : ℕ) (hp : s.place = .progress) :
      Steps s (.thread ok n) { s with place := .outer, made := s.made ++ [.progress] }

theorem step_steps (h : s.step l = some s') : Steps s l s' := by
  cases l with
  | shutdown =>
    cases h
    exact .shutdown
  | thread ok' n' =>
    simp only [Loop.step, Loop.threadStep] at h
    split at h
    case h_1 hp =>
      cases h
      exact .outer ok' n' hp
    case h_2 hp =>
      cases h
      exact .trigger ok' n' hp
    case h_3 ok n hp =>
      cases h
      split
      case isTrue hagain =>
        simp only [ne_eq, Bool.and_eq_true, decide_eq_true_eq, Bool.not_eq_true'] at hagain
        exact .again ok' n' ok n hp hagain.1.1 hagain.1.2 hagain.2
      case isFalse hend =>
        refine .leave ok' n' ok n hp ?_
        simp only [ne_eq, Bool.and_eq_true, decide_eq_true_eq, Bool.not_eq_true'] at hend
        cases ok <;> cases hs : s.shutdown <;> simp_all
    case h_4 hp =>
      cases h
      exact .ifProgress ok' n' hp
    case h_5 hp =>
      cases h
      exact .progress ok' n' hp
    case h_6 => cases h

theorem Paced.concat {made : List Made} {x : Made} (h : Paced made)
    (hx : x = .progress → Idle made) : Paced (made ++ [x]) := by
  intro before after he
  rcases List.eq_nil_or_concat after with rfl | ⟨earlier, z, rfl⟩
  · obtain ⟨rfl, hlast⟩ := List.append_inj' he rfl
    exact hx (by simpa using hlast)
  · have he : made ++ [x] = (before ++ .progress :: earlier) ++ [z] := by simpa using he
    obtain ⟨hmade, -⟩ := List.append_inj' he rfl
    exact h before earlier hmade

/-- How the calls so far fit the place where the thread stands. -/
structure InLine (s : Loop) : Prop where
  paced : Paced s.made
  inner : ∀ ok n, s.place = .inner ok n → ∃ earlier, s.made = earlier ++ [.trigger ok n]
  ifProgress : s.place = .ifProgress → Idle s.made ∨ s.shutdown = true
  progress : s.place = .progress → Idle s.made

theorem Steps.inLine (h : Steps s l s') (hs : InLine s) : InLine s' := by
  obtain ⟨hpaced, hinner, hif, hprogress⟩ := hs
  cases h with
  | shutdown => exact ⟨hpaced, hinner, fun _ ↦ .inr rfl, hprogress⟩
  | outer ok n hp =>
    cases hd : s.shutdown <;> exact ⟨hpaced, by simp, by simp, by simp⟩
  | trigger ok n hp =>
    refine ⟨hpaced.concat (by simp), fun ok' n' he ↦ ?_, by simp, by simp⟩
    cases he
    exact ⟨s.made, rfl⟩
  | again ok' n' ok n hp hok hn hd => exact ⟨hpaced, by simp, by simp, by simp⟩
  | leave ok' n' ok n hp hend =>
    refine ⟨hpaced, by simp, fun _ ↦ hend.imp_left fun hidle ↦ ?_, by simp⟩
    obtain ⟨earlier, hmade⟩ := hinner ok n hp
    exact ⟨earlier, ok, n, hmade, hidle⟩
  | ifProgress ok n hp =>
    cases hd : s.shutdown with
    | true => exact ⟨hpaced, by simp, by simp, by simp⟩
    | false => exact ⟨hpaced, by simp, by simp, fun _ ↦ (hif hp).resolve_right (by simp [hd])⟩
  | progress ok n hp => exact ⟨hpaced.concat fun _ ↦ hprogress hp, by simp, by simp, by simp⟩

/-- Once the flag is set, the thread is about to call Mercury once more at most. -/
theorem Steps.stops (h : Steps s l s') (hs : s.shutdown = true) :
    s'.shutdown = true ∧
      (∃ more, s'.made = s.made ++ more ∧ more.length + s'.place.calls ≤ s.place.calls) ∧
      (if l.isThread then s'.place.left + 1 else s'.place.left) ≤ s.place.left := by
  cases h with
  | shutdown => exact ⟨rfl, ⟨[], by simp, by simp⟩, by simp [Label.isThread]⟩
  | outer ok n hp =>
    refine ⟨hs, ⟨[], by simp, ?_⟩, ?_⟩
    · simp [hs, hp, Place.calls]
    · simp [hs, hp, Label.isThread, Place.left]
  | trigger ok n hp =>
    refine ⟨hs, ⟨[.trigger ok n], rfl, ?_⟩, ?_⟩
    · simp [hp, Place.calls]
    · simp [hp, Label.isThread, Place.left]
  | again ok' n' ok n hp hok hn hd =>
    rw [hs] at hd
    cases hd
  | leave ok' n' ok n hp hend =>
    refine ⟨hs, ⟨[], by simp, ?_⟩, ?_⟩
    · simp [Place.calls]
    · simp [hp, Label.isThread, Place.left]
  | ifProgress ok n hp =>
    refine ⟨hs, ⟨[], by simp, ?_⟩, ?_⟩
    · simp [hs, Place.calls]
    · simp [hs, hp, Label.isThread, Place.left]
  | progress ok n hp =>
    refine ⟨hs, ⟨[.progress], rfl, ?_⟩, ?_⟩
    · simp [hp, Place.calls]
    · simp [hp, Label.isThread, Place.left]

theorem exec_stops {ls : List Label} (h : exec Loop.step s ls = some s')
    (hs : s.shutdown = true) :
    (∃ more, s'.made = s.made ++ more ∧ more.length + s'.place.calls ≤ s.place.calls) ∧
      ls.countP Label.isThread + s'.place.left ≤ s.place.left := by
  induction ls generalizing s with
  | nil =>
    cases h
    exact ⟨⟨[], by simp, by simp⟩, by simp⟩
  | cons l ls ih =>
    obtain ⟨t, ht, h⟩ := Option.bind_eq_some_iff.mp h
    obtain ⟨hd, ⟨more, hmade, hcalls⟩, hleft⟩ := (step_steps ht).stops hs
    obtain ⟨⟨more', hmade', hcalls'⟩, hleft'⟩ := ih h hd
    refine ⟨⟨more ++ more', by rw [hmade', hmade, List.append_assoc], ?_⟩, ?_⟩
    · rw [List.length_append]
      omega
    · rw [List.countP_cons]
      split at hleft
      case isTrue hl =>
        rw [if_pos hl]
        omega
      case isFalse hl =>
        rw [if_neg hl]
        omega

theorem Place.calls_le (p : Place) : p.calls ≤ 1 := by
  cases p <;> simp [Place.calls]

theorem Place.left_le (p : Place) : p.left ≤ 4 := by
  cases p <;> simp [Place.left]

theorem stuck_iff : (∀ ok n, s.step (.thread ok n) = none) ↔ s.place = .finished := by
  constructor
  · intro hstuck
    have h0 := hstuck false 0
    cases hp : s.place with
    | finished => rfl
    | _ => simp [Loop.step, Loop.threadStep, hp] at h0
  · intro hp ok n
    simp [Loop.step, Loop.threadStep, hp]

/-- Whatever Mercury returns, the thread calls `HG_Progress` only when `HG_Trigger` has just failed
or has run no callback. Once the flag is set, it calls Mercury once more at most, and returns
within four steps. -/
theorem progress_thread_ends (ls : List Label) (s : Loop) (h : exec Loop.step start ls = some s) :
    Paced s.made ∧
      (s.shutdown = true → ∀ ls' s', exec Loop.step s ls' = some s' →
        (∃ more, s'.made = s.made ++ more ∧ more.length ≤ 1) ∧ ls'.countP Label.isThread ≤ 4 ∧
          ((∀ ok n, s'.step (.thread ok n) = none) ↔ s'.place = .finished)) := by
  have hline : InLine s := by
    have hreach : Reach Loop.step (fun _ _ ↦ True) start s :=
      .of_exec h ((Along.iff_forall h).mpr fun _ _ ↦ trivial)
    refine hreach.invariant InLine ⟨?_, by simp [start], by simp [start], by simp [start]⟩
      fun _ _ _ hb _ hc ↦ (step_steps hc).inLine hb
    simp [Paced, start]
  refine ⟨hline.paced, fun hs ls' s' h' ↦ ?_⟩
  obtain ⟨⟨more, hmade, hcalls⟩, hleft⟩ := exec_stops h' hs
  have hone := s.place.calls_le
  have hfour := s.place.left_le
  exact ⟨⟨more, hmade, by omega⟩, by omega, stuck_iff⟩

/-- A callback is run, then there is none; the flag comes before the next call of `HG_Trigger`. -/
theorem progress_thread_ends_run :
    ∃ s s' : Loop,
      exec Loop.step start [.thread true 0, .thread true 1, .thread true 0, .thread false 0,
        .thread true 0, .thread true 0, .thread true 0, .thread true 0, .shutdown] = some s ∧
      s.made = [.trigger true 1, .trigger false 0, .progress] ∧ Paced s.made ∧
      exec Loop.step s (.replicate 4 (.thread true 1)) = some s' ∧
      s'.made = s.made ++ [.trigger true 1] ∧ ∀ ok n, s'.step (.thread ok n) = none := by
  let s : Loop := { place := .trigger, shutdown := true,
                    made := [.trigger true 1, .trigger false 0, .progress] }
  let s' : Loop := { place := .finished, shutdown := true, made := s.made ++ [.trigger true 1] }
  have h : exec Loop.step start [.thread true 0, .thread true 1, .thread true 0, .thread false 0,
      .thread true 0, .thread true 0, .thread true 0, .thread true 0, .shutdown] = some s := by
    decide
  have h' : exec Loop.step s (.replicate 4 (.thread true 1)) = some s' := by decide
  obtain ⟨hpaced, hends⟩ := progress_thread_ends _ _ h
  obtain ⟨-, -, hfinished⟩ := hends rfl _ _ h'
  exact ⟨s, s', h, rfl, hpaced, h', rfl, hfinished.mpr rfl⟩

end FTCache.ProgressLoop
