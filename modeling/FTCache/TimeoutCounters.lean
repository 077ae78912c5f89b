import FTCache.Client
import FTCache.Library.Crowd
import FTCache.Library.Runs

namespace FTCache.TimeoutCounters

open Runs Crowd

/-- Where a thread stands in `ftc_track_file`, `ftc_remote_read` or
`ftc_remote_pread`: outside, with its host computed, behind the check of the
counter, or in the wait for the reply. -/
inductive Place
  | outside
  | placed (host : Host)
  | passed (host : Host)
  | waiting (host : Host)
  deriving DecidableEq

structure Process (T : Type) where
  fdMap : PMap Fd Path
  timeoutCounters : List ℕ
  places : T → Place

/-- `timeout_mutex` makes the check and the increment one step each; the threads
interleave everywhere else. -/
inductive Label (T : Type)
  | begin (t : T) (k : Call)
  | check (t : T)
  | forward (t : T)
  | wake (t : T)
  | timeOut (t : T)
  | resize
  deriving DecidableEq

/-- `timeout_counters.resize(num_nodes, 0)`. -/
def initializeTimeoutCounters (counters : List ℕ) (numNodes : ℕ) : List ℕ :=
  counters.take numNodes ++ List.replicate (numNodes - counters.length) 0

namespace Process

variable {T : Type} [DecidableEq T] (cfg : Config) (s : Process T)

/-- `timeout_counters[host]`; outside the vector it has no value. -/
def counter (host : Host) : Option ℕ :=
  if 0 ≤ host then s.timeoutCounters[host.toNat]? else none

def move (t : T) (p : Place) : Process T := { s with places := Function.update s.places t p }

/-- From the call to the computation of `host`; an untracked file needs none. -/
def begin (t : T) : Call → Option (Process T)
  | .openFile path flags fd =>
    some (match trackedPath cfg path flags with
      | none => s
      | some p => { s with fdMap := s.fdMap.insert fd p }.move t (.placed (cfg.host p)))
  | .read fd _ _ => some (match s.fdMap fd with
      | none => s
      | some p => s.move t (.placed (cfg.host p)))
  | .pread fd _ _ _ => some (match s.fdMap fd with
      | none => s
      | some p => s.move t (.placed (cfg.host p)))
  | _ => none

def check (t : T) (host : Host) : Option (Process T) :=
  (s.counter host).map fun c ↦ s.move t (if timeoutLimit ≤ c then .outside else .passed host)

/-- `timeout_counters[host]++` and the return from the wait. -/
def timeOut (t : T) (host : Host) : Option (Process T) :=
  (s.counter host).map fun c ↦
    { s with timeoutCounters := s.timeoutCounters.set host.toNat (c + 1) }.move t .outside

def step (s : Process T) : Label T → Option (Process T)
  | .begin t k => if s.places t = .outside then s.begin cfg t k else none
  | .check t =>
    match s.places t with
    | .placed host => s.check t host
    | _ => none
  | .forward t =>
    match s.places t with
    | .passed host => some (s.move t (.waiting host))
    | _ => none
  | .wake t =>
    match s.places t with
    | .waiting _ => some (s.move t .outside)
    | _ => none
  | .timeOut t =>
    match s.places t with
    | .waiting host => s.timeOut t host
    | _ => none
  | .resize => some { s with
      timeoutCounters := initializeTimeoutCounters s.timeoutCounters cfg.serverCount }

end Process

/-- The process once its library is loaded. The initialiser of the vector runs after the
constructor that has sized it, and leaves it empty. -/
def start (T : Type) : Process T where
  fdMap := fun _ ↦ none
  timeoutCounters := []
  places := fun _ ↦ .outside

/-- Between the check of the counter of `host` and the end of the wait. -/
def Inside (host : Host) (p : Place) : Prop := p = .passed host ∨ p = .waiting host

instance (host : Host) : DecidablePred (Inside host) := fun p ↦
  inferInstanceAs (Decidable (p = .passed host ∨ p = .waiting host))

variable {T : Type} [DecidableEq T] {cfg : Config} {s s' : Process T}

/-- What a step can do to the counters and to the threads inside. -/
inductive Steps (cfg : Config) (s : Process T) : Label T → Process T → Prop
  | quiet (l : Label T) (t : T) (p : Place) (m : PMap Fd Path)
      (hp : ∀ host, Inside host p → Inside host (s.places t)) :
      Steps cfg s l { s with fdMap := m, places := Function.update s.places t p }
  | passes (t : T) (host : Host) (c : ℕ) (hc : s.counter host = some c) (hlt : c < timeoutLimit) :
      Steps cfg s (.check t) (s.move t (.passed host))
  | timesOut (t : T) (host : Host) (c : ℕ) (hp : s.places t = .waiting host)
      (hc : s.counter host = some c) :
      Steps cfg s (.timeOut t)
        ({ s with timeoutCounters := s.timeoutCounters.set host.toNat (c + 1) }.move t .outside)
  | resize : Steps cfg s .resize { s with
      timeoutCounters := initializeTimeoutCounters s.timeoutCounters cfg.serverCount }

theorem not_inside_outside (host : Host) : ¬Inside host .outside := by simp [Inside]

theorem not_inside_placed (host host' : Host) : ¬Inside host (.placed host') := by simp [Inside]

theorem Steps.stay (l : Label T) (t : T) : Steps cfg s l s := by
  have h : Steps cfg s l { s with places := Function.update s.places t (s.places t) } :=
    .quiet l t (s.places t) s.fdMap fun _ hp ↦ hp
  rwa [Function.update_eq_self] at h

theorem begin_steps {l : Label T} {t : T} {k : Call} (h : s.begin cfg t k = some s') :
    Steps cfg s l s' := by
  have hplaced (m : PMap Fd Path) (p : Path) : Steps cfg s l
      { s with fdMap := m, places := Function.update s.places t (.placed (cfg.host p)) } :=
    .quiet l t _ m fun host hp ↦ absurd hp (not_inside_placed host _)
  cases k with
  | openFile path flags fd =>
    cases h
    split
    · exact .stay l t
    · exact hplaced _ _
  | read fd buf count =>
    cases h
    split
    · exact .stay l t
    · exact hplaced _ _
  | pread fd buf count offset =>
    cases h
    split
    · exact .stay l t
    · exact hplaced _ _
  | lseek fd offset whence => cases h
  | close fd => cases h

theorem step_steps {l : Label T} (h : s.step cfg l = some s') : Steps cfg s l s' := by
  have houtside (t : T) : Steps cfg s l (s.move t .outside) :=
    .quiet l t .outside s.fdMap fun host hp ↦ absurd hp (not_inside_outside host)
  cases l with
  | begin t k =>
    simp only [Process.step] at h
    split at h
    · exact begin_steps h
    · cases h
  | check t =>
    simp only [Process.step] at h
    split at h
    case h_1 host hp =>
      obtain ⟨c, hc, rfl⟩ := Option.map_eq_some_iff.mp h
      split
      case isTrue => exact houtside t
      case isFalse hlt => exact .passes t host c hc (by omega)
    case h_2 => cases h
  | forward t =>
    simp only [Process.step] at h
    split at h
    case h_1 host hp =>
      cases h
      refine .quiet _ t _ s.fdMap fun host' hin ↦ ?_
      rw [hp]
      simpa [Inside] using hin
    case h_2 => cases h
  | wake t =>
    simp only [Process.step] at h
    split at h
    case h_1 =>
      cases h
      exact houtside t
    case h_2 => cases h
  | timeOut t =>
    simp only [Process.step] at h
    split at h
    case h_1 host hp =>
      obtain ⟨c, hc, rfl⟩ := Option.map_eq_some_iff.mp h
      exact .timesOut t host c hp hc
    case h_2 => cases h
  | resize =>
    cases h
    exact .resize

theorem resize_same {counters : List ℕ} {n : ℕ} (h : counters.length = n) :
    initializeTimeoutCounters counters n = counters := by
  subst h
  simp [initializeTimeoutCounters]

omit [DecidableEq T] in
theorem counter_some {host : Host} {c : ℕ} (h : s.counter host = some c) :
    0 ≤ host ∧ ∃ hlt : host.toNat < s.timeoutCounters.length,
      s.timeoutCounters[host.toNat] = c := by
  unfold Process.counter at h
  split at h
  case isTrue h0 => exact ⟨h0, List.getElem?_eq_some_iff.mp h⟩
  case isFalse => cases h

omit [DecidableEq T] in
theorem counter_set {host : Host} {c : ℕ} (hc : s.counter host = some c) (host' : Host)
    (hs : s'.timeoutCounters = s.timeoutCounters.set host.toNat (c + 1)) :
    s'.counter host' = if host' = host then some (c + 1) else s.counter host' := by
  obtain ⟨h0, hlt, -⟩ := counter_some hc
  simp only [Process.counter, hs, List.getElem?_set]
  by_cases he : host' = host
  · subst he
    simp [h0, hlt]
  · by_cases h0' : 0 ≤ host'
    · have hne : host.toNat ≠ host'.toNat := fun h ↦
        he (by rw [← Int.toNat_of_nonneg h0', ← Int.toNat_of_nonneg h0, h])
      simp [he, h0', hne]
    · simp [he, h0']

/-- The counters of a single-threaded client are those of the vector. -/
def Counts (cl : Client) (s : Process T) : Prop :=
  ∀ host c, s.counter host = some c → cl.timeoutCounters host = c

omit [DecidableEq T] in
theorem Counts.overLimit_iff {cl : Client} (h : Counts cl s) {host : Host} {c : ℕ}
    (hc : s.counter host = some c) : cl.overLimit host ↔ timeoutLimit ≤ c := by
  rw [Client.overLimit, h host c hc]

theorem Counts.timeOut {cl : Client} (h : Counts cl s) {t : T} {host : Host}
    (hs : s.timeOut t host = some s') : Counts (cl.timeOut host) s' := by
  obtain ⟨c, hc, rfl⟩ := Option.map_eq_some_iff.mp hs
  intro host' c' hc'
  rw [counter_set hc host' rfl] at hc'
  by_cases he : host' = host
  · subst he
    obtain rfl : c + 1 = c' := by simpa using hc'
    simp [Client.timeOut, h host' c hc]
  · simpa [Client.timeOut, he] using h host' c' (by simpa [he] using hc')

/-- The vector is empty or has its size. -/
def Sized (cfg : Config) (s : Process T) : Prop :=
  s.timeoutCounters = [] ∨ s.timeoutCounters.length = cfg.serverCount

/-- Every counter leaves room for the threads that have passed its check. -/
structure Bounded [Fintype T] (cfg : Config) (s : Process T) : Prop where
  size : Sized cfg s
  room : ∀ host c, s.counter host = some c →
    c + crowd s.places (Inside host) ≤ timeoutLimit - 1 + Fintype.card T

omit [DecidableEq T] in
theorem start_bounded [Fintype T] (cfg : Config) : Bounded cfg (start T) :=
  ⟨.inl rfl, fun host c hc ↦ by simp [Process.counter, start] at hc⟩

omit [DecidableEq T] in
/-- The vector of a new size has zeros where it had nothing. -/
theorem counter_resize (h : Sized cfg s) {host : Host} {c : ℕ}
    (hs : s'.timeoutCounters = initializeTimeoutCounters s.timeoutCounters cfg.serverCount)
    (hc : s'.counter host = some c) : s.counter host = some c ∨ c = 0 := by
  rcases h with hnil | hsize
  · right
    obtain ⟨-, hlt, he⟩ := counter_some hc
    rw [← he]
    simp [hs, hnil, initializeTimeoutCounters]
  · left
    rw [resize_same hsize] at hs
    simpa [Process.counter, hs] using hc

/-- A move that enters no host's section takes nobody's room. -/
theorem crowd_quiet [Fintype T] {places : T → Place} {t : T} {p : Place} {host : Host}
    (hp : Inside host p → Inside host (places t)) :
    crowd (Function.update places t p) (Inside host) ≤ crowd places (Inside host) := by
  by_cases hin : Inside host p
  · exact (crowd_update_of_iff ⟨fun _ ↦ hin, hp⟩).le
  · by_cases hold : Inside host (places t)
    · have := crowd_update_leave hold hin
      omega
    · exact (crowd_update_of_iff (iff_of_false hold hin)).le

theorem step_bounded [Fintype T] {l : Label T} (h : Bounded cfg s) (hs : Steps cfg s l s') :
    Bounded cfg s' := by
  cases hs with
  | quiet l t p m hp =>
    refine ⟨h.size, fun host c hc ↦ ?_⟩
    have hroom := h.room host c hc
    have hcrowd : crowd (Function.update s.places t p) (Inside host) ≤
        crowd s.places (Inside host) := crowd_quiet (hp host)
    simp only at hcrowd ⊢
    omega
  | passes t host c hc hlt =>
    refine ⟨h.size, fun host' c' hc' ↦ ?_⟩
    by_cases he : host' = host
    · subst he
      obtain rfl : c = c' := Option.some.inj (hc.symm.trans hc')
      have hle := crowd_le (s.move t (.passed host')).places (Inside host')
      omega
    · have hroom := h.room host' c' hc'
      have hcrowd : crowd (s.move t (.passed host)).places (Inside host') ≤
          crowd s.places (Inside host') :=
        crowd_quiet fun hin ↦ absurd hin (by simp [Inside, Ne.symm he])
      omega
  | timesOut t host c hp hc =>
    refine ⟨by simpa [Sized, Process.move] using h.size, fun host' c' hc' ↦ ?_⟩
    rw [counter_set hc host' rfl] at hc'
    by_cases he : host' = host
    · subst he
      have hroom := h.room host' c hc
      have hleave := crowd_update_leave (P := Inside host') (p := .outside)
        (show Inside host' (s.places t) from .inr hp) (not_inside_outside host')
      obtain rfl : c + 1 = c' := by simpa using hc'
      simp only [Process.move]
      omega
    · have hroom := h.room host' c' (by simpa [he] using hc')
      have hcrowd : crowd (Function.update s.places t .outside) (Inside host') ≤
          crowd s.places (Inside host') :=
        crowd_quiet fun hin ↦ absurd hin (not_inside_outside host')
      simp only [Process.move]
      omega
  | resize =>
    refine ⟨?_, fun host c hc ↦ ?_⟩
    · right
      simp [initializeTimeoutCounters]
      omega
    · rcases counter_resize h.size rfl hc with hold | rfl
      · exact h.room host c hold
      · have hle := crowd_le s.places (Inside host)
        simp only
        omega

/-- A counter is kept, or goes up by one when a wait on its host times out. -/
theorem step_counter {l : Label T} (hsize : Sized cfg s)
    (hs : Steps cfg s l s') {host : Host} {c : ℕ} (hc : s.counter host = some c) :
    s'.counter host = some c ∨
      ∃ t, l = .timeOut t ∧ s.places t = .waiting host ∧ s'.counter host = some (c + 1) := by
  cases hs with
  | quiet l t p m hp => exact .inl hc
  | passes t host' c' hc' hlt => exact .inl hc
  | timesOut t host' c' hp hc' =>
    rw [counter_set hc' host rfl]
    by_cases he : host = host'
    · subst he
      obtain rfl : c = c' := Option.some.inj (hc.symm.trans hc')
      exact .inr ⟨t, rfl, hp, by simp⟩
    · exact .inl (by simpa [he] using hc)
  | resize =>
    left
    rcases hsize with hnil | hsize
    · simp [Process.counter, hnil] at hc
    · rw [resize_same hsize]
      exact hc

theorem reach_bounded [Fintype T] {ok : Process T → Label T → Prop}
    (h : Reach (Process.step cfg) ok s s') (hb : Bounded cfg s) : Bounded cfg s' :=
  h.invariant _ hb fun _ _ _ hb _ hs ↦ step_bounded hb (step_steps hs)

theorem reach_counter [Fintype T] {ok : Process T → Label T → Prop}
    (h : Reach (Process.step cfg) ok s s') (hb : Bounded cfg s) {host : Host} {c : ℕ}
    (hc : s.counter host = some c) : ∃ c', s'.counter host = some c' ∧ c ≤ c' := by
  induction h with
  | refl => exact ⟨c, hc, le_rfl⟩
  | tail h _ hs ih =>
    obtain ⟨c', hc', hle⟩ := ih
    rcases step_counter (reach_bounded h hb).size (step_steps hs) hc' with hsame | ⟨t, -, -, hmore⟩
    · exact ⟨c', hsame, hle⟩
    · exact ⟨c' + 1, hmore, by omega⟩

/-- However the threads interleave, a counter passes its limit by less than their
number; it never goes down, and up only at a timed-out wait on its host. -/
theorem counters_overshoot_bounded [Fintype T] (cfg : Config) (s : Process T)
    (h : Reach (Process.step cfg) (fun _ _ ↦ True) (start T) s) :
    (∀ host c, s.counter host = some c → c ≤ timeoutLimit - 1 + Fintype.card T) ∧
    (∀ l s', s.step cfg l = some s' → ∀ host c, s.counter host = some c →
      s'.counter host = some c ∨
        ∃ t, l = .timeOut t ∧ s.places t = .waiting host ∧ s'.counter host = some (c + 1)) ∧
    ∀ s', Reach (Process.step cfg) (fun _ _ ↦ True) s s' → ∀ host c, s.counter host = some c →
      ∃ c', s'.counter host = some c' ∧ c ≤ c' := by
  have hb := reach_bounded h (start_bounded cfg)
  refine ⟨fun host c hc ↦ ?_, fun l s' hs host c hc ↦ step_counter hb.size (step_steps hs) hc,
    fun s' h' host c hc ↦ reach_counter h' hb hc⟩
  have hroom := hb.room host c hc
  omega

/-- Two threads that pass the check together reach the bound. -/
theorem counters_overshoot_bounded_attained :
    ∃ s : Process (Fin 2), s.counter 0 = some 4 ∧ 4 ≤ timeoutLimit - 1 + Fintype.card (Fin 2) := by
  obtain ⟨s, hreach, hc⟩ : ∃ s, Reach (Process.step sampleConfig) (fun _ _ ↦ True)
      (start (Fin 2)) s ∧ s.counter 0 = some 4 :=
    Reach.exists_of_exec
      [.begin 0 (.openFile samplePath oRdonly 3), .resize, .check 0, .forward 0, .timeOut 0,
        .begin 0 (.read 3 64 4), .check 0, .forward 0, .timeOut 0,
        .begin 0 (.read 3 64 4), .begin 1 (.pread 3 128 4 0), .check 0, .check 1,
        .forward 0, .forward 1, .timeOut 0, .timeOut 1]
      (by decide +kernel) (by decide +kernel)
  exact ⟨s, hc, (counters_overshoot_bounded sampleConfig s hreach).1 0 4 hc⟩

end FTCache.TimeoutCounters
