import FTCache.Library.Runs
import FTCache.Library.Scan
import FTCache.TimeoutCounters

namespace FTCache.HostSelection

open Words Runs Scan

/-- Where a thread stands in `ftc_track_file` or one of the `ftc_remote_` calls: outside; with
`fd_map[fd]` written; with `g_mercury_init` found unset, and with it set; about to compute its
host; with the host computed; behind the check of the counter; in the wait for the reply; or
about to forget the descriptor. -/
inductive Place
  | outside
  | recorded (k : Call)
  | starting (k : Call)
  | sizing (k : Call)
  | tracked (k : Call)
  | placed (k : Call) (host : Host)
  | passed (k : Call) (host : Host)
  | waiting (host : Host)
  | removing (fd : Fd)
  deriving DecidableEq

structure Process (T : Type) where
  serverCount : ℕ
  timeoutCounters : List ℕ
  fdMap : PMap Fd Path := fun _ ↦ none
  mercuryInit : Bool := false
  places : T → Place := fun _ ↦ .outside

inductive Label (T : Type)
  | begin (t : T) (k : Call)
  | setUp (t : T)
  | register (t : T)
  | resize (t : T)
  | select (t : T)
  | check (t : T)
  | forward (t : T)
  | wake (t : T)
  | timeOut (t : T)
  | remove (t : T)
  deriving DecidableEq

/-- `max_size()` of a vector of `int`. -/
def vectorMax : ℕ := 2 ^ 61 - 1

/-- `initialize_timeout_counters`, with an allocator that has room for so many counters or not;
where `resize` throws there is no state after it. -/
def initializeTimeoutCounters (allocates : ℕ → Bool) (counters : List ℕ) (numNodes : ℤ) :
    Option (List ℕ) :=
  let n := size64 numNodes
  if n ≤ counters.length ∨ n ≤ vectorMax ∧ allocates n then
    some (TimeoutCounters.initializeTimeoutCounters counters n)
  else none

/-- `ftc_client_init` with `FT_Cache_SERVER_COUNT` as given, up to where it turns redirection on;
without the variable it never does. -/
def ftcClientInit (T : Type) (allocates : ℕ → Bool) : Option (List Char) → Option (Process T)
  | none => none
  | some v =>
    let n := uint32 (atoi v)
    (initializeTimeoutCounters allocates [] (int32 n)).map fun counters ↦
      { serverCount := n, timeoutCounters := counters }

/-- The process once its library is loaded. `timeout_counters` is defined in
ftc_comm_client.cpp, which is linked behind the file with the constructor: its initialiser
runs after it, and leaves the vector empty. -/
def load (T : Type) (allocates : ℕ → Bool) (serverCount : Option (List Char)) :
    Option (Process T) :=
  (ftcClientInit T allocates serverCount).map fun s ↦ { s with timeoutCounters := [] }

namespace Process

variable {T : Type} [DecidableEq T] (allocates : ℕ → Bool) (cfg : Config) (s : Process T)

def move (t : T) (p : Place) : Process T := { s with places := Function.update s.places t p }

/-- `timeout_counters[host]`; outside the vector it has no value. -/
def counter (host : Host) : Option ℕ :=
  if 0 ≤ host then s.timeoutCounters[host.toNat]? else none

/-- `std::hash<std::string>{}(fd_map[fd]) % g_ftc_server_count`, stored in an `int`. -/
def host (fd : Fd) : Host := int32 (cfg.hash (s.fdMap.index fd) % s.serverCount : ℕ)

/-- From the call to where it needs its host; an untracked file needs none. -/
def begin (t : T) : Call → Process T
  | .openFile path flags fd =>
    match trackedPath cfg path flags with
    | none => s
    | some p => { s with fdMap := s.fdMap.insert fd p }.move t (.recorded (.openFile path flags fd))
  | .close fd => s.move t (if (s.fdMap fd).isSome then .tracked (.close fd) else .removing fd)
  | k => if (s.fdMap k.fd).isSome then s.move t (.tracked k) else s

/-- Where a call goes on without its counter, and after it has been turned down by it. -/
def leave : Call → Place
  | .close fd => .removing fd
  | _ => .outside

/-- A seek looks at no counter, and a division by zero is not defined. -/
def select (t : T) (k : Call) : Option (Process T) :=
  if s.serverCount = 0 then none
  else some ({ s with fdMap := s.fdMap.touch k.fd }.move t (match k with
    | .lseek _ _ _ => .outside
    | _ => .placed k (s.host cfg k.fd)))

def check (t : T) (k : Call) (host : Host) : Option (Process T) :=
  (s.counter host).map fun c ↦ s.move t (if timeoutLimit ≤ c then leave k else .passed k host)

/-- `timeout_counters[host]++` and the return from the wait. -/
def timeOut (t : T) (host : Host) : Option (Process T) :=
  (s.counter host).map fun c ↦
    { s with timeoutCounters := s.timeoutCounters.set host.toNat (c + 1) }.move t .outside

def step (s : Process T) : Label T → Option (Process T)
  | .begin t k => if s.places t = .outside then some (s.begin cfg t k) else none
  | .setUp t =>
    match s.places t with
    | .recorded k => some (s.move t (if s.mercuryInit then .tracked k else .starting k))
    | _ => none
  | .register t =>
    match s.places t with
    | .starting k => some ({ s with mercuryInit := true }.move t (.sizing k))
    | _ => none
  | .resize t =>
    match s.places t with
    | .sizing k =>
      (initializeTimeoutCounters allocates s.timeoutCounters (int32 s.serverCount)).map
        fun counters ↦ { s with timeoutCounters := counters }.move t (.tracked k)
    | _ => none
  | .select t =>
    match s.places t with
    | .tracked k => s.select cfg t k
    | _ => none
  | .check t =>
    match s.places t with
    | .placed k host => s.check t k host
    | _ => none
  | .forward t =>
    match s.places t with
    | .passed (.close fd) _ => some (s.move t (.removing fd))
    | .passed _ host => some (s.move t (.waiting host))
    | _ => none
  | .wake t =>
    match s.places t with
    | .waiting _ => some (s.move t .outside)
    | _ => none
  | .timeOut t =>
    match s.places t with
    | .waiting host => s.timeOut t host
    | _ => none
  | .remove t =>
    match s.places t with
    | .removing fd => some ({ s with fdMap := s.fdMap.erase fd }.move t .outside)
    | _ => none

def InRange (host : Host) : Prop := 0 ≤ host ∧ host.toNat < s.timeoutCounters.length

instance (host : Host) : Decidable (s.InRange host) :=
  inferInstanceAs (Decidable (0 ≤ host ∧ host.toNat < s.timeoutCounters.length))

end Process

/-- What the next step of a thread divides by is not zero, and the counter that it reads or
increments is there. -/
def Safe {T : Type} (s : Process T) : Label T → Prop
  | .select t => ∀ k, s.places t = .tracked k → s.serverCount ≠ 0
  | .check t => ∀ k host, s.places t = .placed k host → s.InRange host
  | .timeOut t => ∀ host, s.places t = .waiting host → s.InRange host
  | _ => True

/-- A thread looks at a counter only when the vector has been given its size. -/
def Ready {T : Type} (s : Process T) : Label T → Prop
  | .check _ => s.timeoutCounters ≠ []
  | _ => True

def Place.host : Place → Option Host
  | .placed _ host => some host
  | .passed _ host => some host
  | .waiting host => some host
  | _ => none

/-- The thread has seen a counter. -/
def Place.counted : Place → Bool
  | .passed _ _ => true
  | .waiting _ => true
  | _ => false

theorem Place.not_counted {p : Place} (h : p.host = none) : p.counted = false := by
  cases p <;> simp_all [Place.host, Place.counted]

@[simp]
theorem leave_host (k : Call) : (Process.leave k).host = none := by
  cases k <;> rfl

variable {T : Type} [DecidableEq T] {allocates : ℕ → Bool} {cfg : Config} {s s' : Process T}

inductive Steps (cfg : Config) (s : Process T) : Process T → Prop
  | quiet (t : T) (p : Place) (m : PMap Fd Path) (b : Bool)
      (hp : ∀ host, p.host = some host → (s.places t).host = some host)
      (hc : p.counted = true → (s.places t).counted = true ∨ s.timeoutCounters ≠ []) :
      Steps cfg s
        { s with fdMap := m, mercuryInit := b, places := Function.update s.places t p }
  | selects (t : T) (k : Call) (m : PMap Fd Path) (h : s.serverCount ≠ 0) :
      Steps cfg s { s with
        fdMap := m, places := Function.update s.places t (.placed k (s.host cfg k.fd)) }
  | counts (t : T) (counters : List ℕ) (p : Place) (hp : p.host = none)
      (h : counters.length = s.timeoutCounters.length ∨
        counters.length = size64 (int32 s.serverCount)) :
      Steps cfg s
        { s with timeoutCounters := counters, places := Function.update s.places t p }

theorem Steps.stay (t : T) : Steps cfg s s := by
  have h : Steps cfg s { s with places := Function.update s.places t (s.places t) } :=
    .quiet t (s.places t) s.fdMap s.mercuryInit (fun _ h ↦ h) .inl
  rwa [Function.update_eq_self] at h

theorem Steps.moves (t : T) {p : Place} (m : PMap Fd Path) (b : Bool) (hp : p.host = none) :
    Steps cfg s { s with fdMap := m, mercuryInit := b, places := Function.update s.places t p } :=
  .quiet t p m b (fun host h ↦ by simp [hp] at h) fun h ↦ by simp [Place.not_counted hp] at h

theorem initializeTimeoutCounters_length {counters counters' : List ℕ} {n : ℤ}
    (h : initializeTimeoutCounters allocates counters n = some counters') :
    counters'.length = size64 n := by
  simp only [initializeTimeoutCounters] at h
  split at h
  case isTrue =>
    cases h
    simp [TimeoutCounters.initializeTimeoutCounters]
    omega
  case isFalse => cases h

omit [DecidableEq T] in
theorem counter_ne_nil {host : Host} {c : ℕ} (h : s.counter host = some c) :
    s.timeoutCounters ≠ [] := by
  intro hnil
  simp [Process.counter, hnil] at h

theorem begin_steps (t : T) (k : Call) : Steps cfg s (s.begin cfg t k) := by
  cases k with
  | openFile path flags fd =>
    simp only [Process.begin]
    split
    · exact .stay t
    · exact .moves t _ _ rfl
  | close fd =>
    simp only [Process.begin]
    split
    · exact .moves t _ _ rfl
    · exact .moves t _ _ rfl
  | _ =>
    simp only [Process.begin]
    split
    · exact .moves t _ _ rfl
    · exact .stay t

theorem select_steps {t : T} {k : Call} (h : s.select cfg t k = some s') : Steps cfg s s' := by
  simp only [Process.select] at h
  split at h
  case isTrue => cases h
  case isFalse hn =>
    cases h
    split
    · exact .moves t _ _ rfl
    · exact .selects t k _ hn

theorem step_steps {l : Label T} (h : s.step allocates cfg l = some s') : Steps cfg s s' := by
  cases l with
  | begin t k =>
    simp only [Process.step] at h
    split at h
    · cases h
      exact begin_steps t k
    · cases h
  | setUp t =>
    simp only [Process.step] at h
    split at h
    case h_1 =>
      cases h
      split
      · exact .moves t _ _ rfl
      · exact .moves t _ _ rfl
    case h_2 => cases h
  | register t =>
    simp only [Process.step] at h
    split at h
    case h_1 =>
      cases h
      exact .moves t _ _ rfl
    case h_2 => cases h
  | resize t =>
    simp only [Process.step] at h
    split at h
    case h_1 =>
      obtain ⟨counters, hc, rfl⟩ := Option.map_eq_some_iff.mp h
      exact .counts t counters _ rfl (.inr (initializeTimeoutCounters_length hc))
    case h_2 => cases h
  | select t =>
    simp only [Process.step] at h
    split at h
    case h_1 => exact select_steps h
    case h_2 => cases h
  | check t =>
    simp only [Process.step] at h
    split at h
    case h_1 k host hp =>
      obtain ⟨c, hc, rfl⟩ := Option.map_eq_some_iff.mp h
      split
      · exact .moves t _ _ (leave_host k)
      · exact .quiet t _ _ _ (fun host' h' ↦ by rwa [hp]) fun _ ↦ .inr (counter_ne_nil hc)
    case h_2 => cases h
  | forward t =>
    simp only [Process.step] at h
    split at h
    case h_1 =>
      cases h
      exact .moves t _ _ rfl
    case h_2 k host hk hp =>
      cases h
      exact .quiet t _ _ _ (fun host' h' ↦ by rwa [hp]) fun _ ↦ .inl (by rw [hp]; rfl)
    case h_3 => cases h
  | wake t =>
    simp only [Process.step] at h
    split at h
    case h_1 =>
      cases h
      exact .moves t _ _ rfl
    case h_2 => cases h
  | timeOut t =>
    simp only [Process.step] at h
    split at h
    case h_1 host hp =>
      obtain ⟨c, -, rfl⟩ := Option.map_eq_some_iff.mp h
      exact .counts t _ _ rfl (.inl (List.length_set ..))
    case h_2 => cases h
  | remove t =>
    simp only [Process.step] at h
    split at h
    case h_1 =>
      cases h
      exact .moves t _ _ rfl
    case h_2 => cases h

def HostBelow (n : ℕ) (p : Place) : Prop := ∀ host, p.host = some host → 0 ≤ host ∧ host.toNat < n

def CountedIn (counters : List ℕ) (p : Place) : Prop := p.counted = true → counters ≠ []

/-- As many counters as servers once there are any, which every thread has waited for that
has seen one; and every host that a thread has computed is one of the servers. -/
structure Fits (n : ℕ) (s : Process T) : Prop where
  servers : s.serverCount = n
  size : s.timeoutCounters = [] ∨ s.timeoutCounters.length = n
  hosts : ∀ t, HostBelow n (s.places t)
  counted : ∀ t, CountedIn s.timeoutCounters (s.places t)

theorem places_update {P : Place → Prop} {places : T → Place} (h : ∀ u, P (places u)) {t : T}
    {p : Place} (hp : P p) (u : T) : P (Function.update places t p u) := by
  by_cases hu : u = t
  · subst hu
    simpa using hp
  · simpa [hu] using h u

theorem Steps.fits {n : ℕ} (hpos : 0 < n) (hn : n < 2 ^ 31) (h : Fits n s) (hs : Steps cfg s s') :
    Fits n s' := by
  cases hs with
  | quiet t p m b hp hc =>
    refine ⟨h.servers, h.size,
      places_update (P := HostBelow n) h.hosts fun host h' ↦ h.hosts t host (hp host h'),
      places_update (P := CountedIn s.timeoutCounters) h.counted fun h' ↦ ?_⟩
    exact (hc h').elim (h.counted t) id
  | selects t k m hne =>
    have hlt : s.serverCount < 2 ^ 31 := by rwa [h.servers]
    have hrange := int32_mod_range (cfg.hash (s.fdMap.index k.fd)) (Nat.pos_of_ne_zero hne) hlt
    refine ⟨h.servers, h.size, places_update (P := HostBelow n) h.hosts fun host h' ↦ ?_,
      places_update (P := CountedIn s.timeoutCounters) h.counted fun h' ↦ by cases h'⟩
    obtain rfl : s.host cfg k.fd = host := by simpa [Place.host] using h'
    exact ⟨hrange.1, h.servers ▸ hrange.2⟩
  | counts t counters p hp hc =>
    have hsize : counters = [] ∧ s.timeoutCounters = [] ∨ counters.length = n := by
      rcases hc with hc | hc
      · rcases h.size with hnil | hlen
        · exact .inl ⟨List.eq_nil_of_length_eq_zero (by simp [hc, hnil]), hnil⟩
        · exact .inr (hc.trans hlen)
      · right
        rw [hc, h.servers, int32_natCast hn, size64_natCast (by omega)]
    refine ⟨h.servers, hsize.imp_left And.left,
      places_update (P := HostBelow n) h.hosts fun host h' ↦ by simp [hp] at h',
      places_update (P := CountedIn counters) (fun u hu ↦ ?_) fun h' ↦ ?_⟩
    swap
    · simp [Place.not_counted hp] at h'
    rcases hsize with ⟨-, hnil⟩ | hlen
    · exact absurd hnil (h.counted u hu)
    · exact List.ne_nil_of_length_pos (by omega)

omit [DecidableEq T] in
theorem Fits.inRange {n : ℕ} (h : Fits n s) (hne : s.timeoutCounters ≠ []) {t : T} {host : Host}
    (hp : (s.places t).host = some host) : s.InRange host := by
  obtain ⟨h0, hlt⟩ := h.hosts t host hp
  exact ⟨h0, by rwa [h.size.resolve_left hne]⟩

omit [DecidableEq T] in
theorem Fits.safe {n : ℕ} (h : Fits n s) (hn : n ≠ 0) {l : Label T} (hl : Ready s l) :
    Safe s l := by
  cases l with
  | select t => exact fun _ _ ↦ by rwa [h.servers]
  | check t => exact fun k host hp ↦ h.inRange hl (t := t) (by simp [hp, Place.host])
  | timeOut t =>
    intro host hp
    exact h.inRange (h.counted t (by simp [hp, Place.counted])) (t := t) (by simp [hp, Place.host])
  | _ => trivial

/-- The process once its library is loaded for so many servers. -/
def started (T : Type) (n : ℕ) : Process T where
  serverCount := n
  timeoutCounters := []

omit [DecidableEq T] in
theorem started_fits (n : ℕ) : Fits n (started T n) :=
  ⟨rfl, .inl rfl, by simp [started, HostBelow, Place.host],
    by simp [started, CountedIn, Place.counted]⟩

omit [DecidableEq T] in
/-- With the count of the job, the counters and hosts of the job's other processes. -/
theorem started_job (cfg : Config) :
    (started T cfg.serverCount).timeoutCounters = (TimeoutCounters.start T).timeoutCounters ∧
      ∀ (s : Process T) (fd : Fd), s.serverCount = cfg.serverCount →
        s.host cfg fd = cfg.host (s.fdMap.index fd) :=
  ⟨rfl, fun s fd h ↦ by rw [Process.host, Config.host, h]⟩

theorem initializeTimeoutCounters_nil {z : ℤ} (hz : -2 ^ 31 ≤ z) (hz' : z < 2 ^ 31)
    {counters : List ℕ} : initializeTimeoutCounters allocates [] z = some counters ↔
      0 ≤ z ∧ (z = 0 ∨ allocates z.toNat) ∧ counters = List.replicate z.toNat 0 := by
  have hmax : 2 ^ 31 ≤ vectorMax ∧ vectorMax < 2 ^ 63 := by norm_num [vectorMax]
  by_cases hpos : 0 ≤ z
  · have hcast := size64_of_nonneg hpos (by omega)
    have hn : size64 z = z.toNat := by omega
    have hfits : z.toNat ≤ vectorMax := by omega
    have hzero : z.toNat ≤ 0 ↔ z = 0 := by omega
    simp only [initializeTimeoutCounters, hn, List.length_nil, hfits, hzero, true_and, hpos,
      TimeoutCounters.initializeTimeoutCounters, List.take_nil, List.nil_append, Nat.sub_zero,
      Option.ite_none_right_eq_some, Option.some.injEq, eq_comm (b := counters)]
  · have hbig := size64_of_neg (not_le.mp hpos) (by omega)
    have hlong : ¬(size64 z ≤ 0 ∨ size64 z ≤ vectorMax ∧ allocates (size64 z)) := by omega
    simp only [initializeTimeoutCounters, List.length_nil, hlong, hpos, ↓reduceIte, reduceCtorEq,
      false_and]

omit [DecidableEq T] in
/-- The values that the constructor gets past: `atoi` makes a count of them that is not negative
and for which there is room. -/
theorem load_eq_some_iff {v : List Char} :
    load T allocates (some v) = some s ↔
      0 ≤ atoi v ∧ (atoi v = 0 ∨ allocates (atoi v).toNat) ∧ s = started T (atoi v).toNat := by
  have hlo : -2 ^ 31 ≤ atoi v := int32_lower _
  have hhi : atoi v < 2 ^ 31 := int32_upper _
  simp only [load, ftcClientInit, Option.map_eq_some_iff, int32_uint32, int32_of_range hlo hhi,
    initializeTimeoutCounters_nil hlo hhi]
  constructor
  · rintro ⟨-, ⟨counters, ⟨hpos, hroom, -⟩, rfl⟩, rfl⟩
    refine ⟨hpos, hroom, ?_⟩
    rw [uint32_of_nonneg hpos (by omega), started]
  · rintro ⟨hpos, hroom, rfl⟩
    refine ⟨_, ⟨_, ⟨hpos, hroom, rfl⟩, rfl⟩, ?_⟩
    rw [uint32_of_nonneg hpos (by omega), started]

/-- An open of a file that is tracked gets to where it needs its host. -/
theorem started_tracked (allocates : ℕ → Bool) {path p : Path} {flags : BitVec 32}
    (hp : trackedPath cfg path flags = some p) (t : T) :
    ∃ s, Reach (Process.step allocates cfg) Ready (started T 0) s ∧
      s.places t = .tracked (.openFile path flags 0) ∧ s.serverCount = 0 := by
  let k : Call := .openFile path flags 0
  let s₁ : Process T :=
    { started T 0 with fdMap := (started T 0).fdMap.insert 0 p }.move t (.recorded k)
  let s₂ : Process T := s₁.move t (.starting k)
  let s₃ : Process T := { s₂ with mercuryInit := true }.move t (.sizing k)
  let s₄ : Process T := s₃.move t (.tracked k)
  have h₁ : (started T 0).step allocates cfg (.begin t k) = some s₁ := by
    simp [Process.step, Process.begin, started, hp, k, s₁]
  have h₂ : s₁.step allocates cfg (.setUp t) = some s₂ := by
    simp [Process.step, Process.move, started, s₁, s₂]
  have h₃ : s₂.step allocates cfg (.register t) = some s₃ := by
    simp [Process.step, Process.move, started, s₁, s₂, s₃]
  have h₄ : s₃.step allocates cfg (.resize t) = some s₄ := by
    have hzero : int32 0 = 0 := by simpa using int32_natCast (n := 0) (by norm_num)
    have hnone : initializeTimeoutCounters allocates [] 0 = some [] :=
      (initializeTimeoutCounters_nil (by norm_num) (by norm_num)).mpr
        ⟨by norm_num, .inl rfl, rfl⟩
    simp [Process.step, Process.move, started, s₁, s₂, s₃, s₄, hzero, hnone]
  have hready : ∀ s : Process T, Ready s (.resize t) := fun _ ↦ trivial
  refine ⟨s₄, (((Reach.refl.tail trivial h₁).tail trivial h₂).tail trivial h₃).tail (hready s₃) h₄,
    ?_, rfl⟩
  simp [s₄, Process.move, k]

/-- Nothing is tracked, and no call is on its way to a host. -/
structure Idle (s : Process T) : Prop where
  fdMap : ∀ fd, s.fdMap fd = none
  places : ∀ t, s.places t = .outside ∨ ∃ fd, s.places t = .removing fd

theorem Idle.move (h : Idle s) {t : T} {p : Place} {m : PMap Fd Path}
    (hm : ∀ fd, m fd = none) (hp : p = .outside ∨ ∃ fd, p = .removing fd) :
    Idle ({ s with fdMap := m }.move t p) :=
  ⟨hm, places_update (P := fun p ↦ p = .outside ∨ ∃ fd, p = .removing fd) h.places hp⟩

theorem Idle.step (hpaths : ∀ path flags, trackedPath cfg path flags = none) (h : Idle s)
    {l : Label T} (hs : s.step allocates cfg l = some s') : Idle s' := by
  cases l with
  | begin t k =>
    simp only [Process.step] at hs
    split at hs
    case isTrue =>
      cases hs
      cases k with
      | openFile path flags fd => simpa [Process.begin, hpaths] using h
      | close fd => simpa [Process.begin, h.fdMap] using h.move h.fdMap (.inr ⟨fd, rfl⟩)
      | _ => simpa [Process.begin, h.fdMap] using h
    case isFalse => cases hs
  | remove t =>
    simp only [Process.step] at hs
    split at hs
    case h_1 fd hp =>
      cases hs
      exact h.move (fun fd' ↦ by simp [h.fdMap]) (.inl rfl)
    case h_2 => cases hs
  | _ t =>
    obtain hp | ⟨fd, hp⟩ := h.places t
    · simp [Process.step, hp] at hs
    · simp [Process.step, hp] at hs

omit [DecidableEq T] in
theorem Idle.safe (h : Idle s) (l : Label T) : Safe s l := by
  cases l with
  | select t => exact fun k hp ↦ by simpa [hp] using h.places t
  | check t => exact fun k host hp ↦ by simpa [hp] using h.places t
  | timeOut t => exact fun host hp ↦ by simpa [hp] using h.places t
  | _ => trivial

/-- With any value that the constructor gets past, and threads that look at no counter before
the vector has its size, every host that is ever computed is defined and has its counter,
exactly if the value counts some server or no file is ever tracked. -/
theorem host_selection_safe_iff [Inhabited T] (allocates : ℕ → Bool) (cfg : Config)
    (v : List Char) (s₀ : Process T) (h : load T allocates (some v) = some s₀) :
    (∀ s l, Reach (Process.step allocates cfg) Ready s₀ s → Ready s l → Safe s l) ↔
      atoi v ≠ 0 ∨ ∀ path flags, trackedPath cfg path flags = none := by
  obtain ⟨hpos, -, rfl⟩ := load_eq_some_iff.mp h
  have hlt : (atoi v).toNat < 2 ^ 31 := by
    have hhi : atoi v < 2 ^ 31 := int32_upper _
    omega
  constructor
  · intro hsafe
    by_contra hcon
    push Not at hcon
    obtain ⟨hzero, path, flags, hp⟩ := hcon
    obtain ⟨p, hp⟩ := Option.ne_none_iff_exists'.mp hp
    obtain ⟨s, hs, hplace, hcount⟩ := started_tracked allocates hp (default : T)
    rw [show started T (atoi v).toNat = started T 0 by rw [hzero, Int.toNat_zero]] at hsafe
    exact hsafe s (.select default) hs trivial _ hplace hcount
  · rintro (hne | hpaths) s l hs hl
    · have hfits : Fits (atoi v).toNat s :=
        hs.invariant _ (started_fits _) fun _ _ _ hf _ hstep ↦
          (step_steps hstep).fits (by omega) hlt hf
      exact hfits.safe (by omega) hl
    · have hidle : Idle s := hs.invariant _ ⟨fun _ ↦ rfl, fun _ ↦ .inl rfl⟩
        fun _ _ _ hi _ hstep ↦ hi.step hpaths hstep
      exact hidle.safe l

theorem host_selection_safe_iff_one :
    (∀ s l, Reach (Process.step (fun _ ↦ true) sampleConfig) Ready (started Unit 1) s →
      Ready s l → Safe s l) ↔
      atoi ['1'] ≠ 0 ∨ ∀ path flags, trackedPath sampleConfig path flags = none :=
  host_selection_safe_iff (fun _ ↦ true) sampleConfig ['1'] (started Unit 1)
    (load_eq_some_iff.mpr ⟨by decide +kernel, .inr rfl, by
      rw [show atoi ['1'] = 1 by decide +kernel, Int.toNat_one]⟩)

/-- `FT_Cache_SERVER_COUNT=0`. -/
theorem no_servers :
    ¬∀ (allocates : ℕ → Bool) (cfg : Config) (v : List Char) (s₀ : Process Unit),
      load Unit allocates (some v) = some s₀ →
      ∀ s l, Reach (Process.step allocates cfg) (fun _ _ ↦ True) s₀ s → Safe s l := by
  intro h
  have hzero : atoi ['0'] = 0 := by decide +kernel
  have hload : load Unit (fun _ ↦ true) (some ['0']) = some (started Unit 0) :=
    load_eq_some_iff.mpr ⟨hzero.ge, .inl hzero, by rw [hzero, Int.toNat_zero]⟩
  obtain ⟨s, hs, hplace, hcount⟩ :=
    started_tracked (T := Unit) (fun _ ↦ true)
      (show trackedPath sampleConfig samplePath oRdonly = some samplePath from rfl) ()
  exact h _ _ _ _ hload s (.select ()) (hs.mono fun _ _ _ ↦ trivial) _ hplace hcount

/-- `g_mercury_init` is set before the vector has its size: a second open goes past it and
looks for a counter in the empty vector. -/
theorem counters_not_sized : ∃ s : Process Bool,
    Reach (Process.step (fun _ ↦ true) sampleConfig) (fun _ _ ↦ True) (started Bool 1) s ∧
      ¬Safe s (.check true) := by
  obtain ⟨s, hs, hplace, hnil⟩ : ∃ s : Process Bool,
      Reach (Process.step (fun _ ↦ true) sampleConfig) (fun _ _ ↦ True) (started Bool 1) s ∧
        s.places true = .placed (.openFile otherPath oRdonly 4) 0 ∧ s.timeoutCounters = [] :=
    Reach.exists_of_exec [.begin false (.openFile samplePath oRdonly 3), .setUp false,
      .register false, .begin true (.openFile otherPath oRdonly 4), .setUp true, .select true]
      (by decide +kernel) (by decide +kernel)
  refine ⟨s, hs, fun hsafe ↦ ?_⟩
  have hrange := hsafe _ _ hplace
  simp [Process.InRange, hnil] at hrange

end FTCache.HostSelection
