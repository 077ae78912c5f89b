import FTCache.Library.Chains
import FTCache.RemoteCalls
import FTCache.World

namespace FTCache.Interception

open Client Chains

/-- What a process gets from its environment: where it logs, its rank, what the real `fopen`
answers, and the replies to its open requests, none where the wait for it times out. -/
structure Setup where
  logDir : Path
  jobid : Path
  rank : ℤ
  opens : Path → Bool
  fileno : ℕ → Fd
  replies : ℕ → Option Fd

/-- The library in a process. The two counts are history variables. -/
structure Session where
  client : Client
  mercuryInit : Bool
  interceptions : ℕ := 0
  requests : ℕ := 0

inductive Halt
  | exit
  | fault (f : Fault)
  deriving DecidableEq

/-- How a call ends that may nest so many interceptions and no more. -/
inductive Outcome (α : Type)
  | deeper
  | halted (h : Halt)
  | done (a : α)

namespace Outcome

variable {α β : Type}

def bind (x : Outcome α) (f : α → Outcome β) : Outcome β :=
  match x with
  | deeper => deeper
  | halted h => halted h
  | done a => f a

instance : Monad Outcome where
  pure := done
  bind := bind

@[simp] theorem deeper_bind (f : α → Outcome β) : (deeper >>= f) = deeper := rfl
@[simp] theorem halted_bind (h : Halt) (f : α → Outcome β) : (halted h >>= f) = halted h := rfl
@[simp] theorem done_bind (a : α) (f : α → Outcome β) : (done a >>= f) = f a := rfl
@[simp] theorem pure_eq (a : α) : (pure a : Outcome α) = done a := rfl

theorem bind_deeper {x : Outcome α} {f : α → Outcome β} (h : (x >>= f) ≠ deeper) :
    x ≠ deeper ∧ ∀ a, x = done a → f a ≠ deeper := by
  cases x with
  | deeper => exact absurd rfl h
  | halted e => exact ⟨by simp, by simp⟩
  | done a =>
    refine ⟨by simp, fun b hb ↦ ?_⟩
    cases hb
    exact h

end Outcome

def decimal : ℤ → Path
  | .ofNat n => Nat.toDigits 10 n
  | .negSucc n => '-' :: Nat.toDigits 10 (n + 1)

def client : Path := ['c', 'l', 'i', 'e', 'n', 't']

variable (cfg : Config) (env : Setup)

/-- `"%s/%s_node_%d.log"` in an array of 64 characters. -/
def logFilename (type : Path) (rank : ℤ) : Path :=
  (env.logDir ++ '/' :: type ++ ['_', 'n', 'o', 'd', 'e', '_'] ++ decimal rank ++
    ['.', 'l', 'o', 'g']).take 63

def portsFile : Path := '.' :: '/' :: portsMark ++ env.jobid

def realFopen (path : Path) : Bool :=
  if path = portsFile env then cfg.ports.isSome else env.opens path

section Calls

-- the fopen that these functions call is the wrapper again
variable (fopen : Session → Path → Outcome (Session × Bool))

/-- A log file that does not open is left out. `fclose` is not intercepted. -/
def loggingInfo (s : Session) (serverRank : Host) : Outcome Session := do
  let r ← fopen s (logFilename env client serverRank)
  pure r.1

def initializeLog (s : Session) : Outcome Session := do
  let r ← fopen s (logFilename env client env.rank)
  if r.2 then pure r.1 else .halted .exit

/-- `ftc_client_comm_lookup_addr` opens the port file unless the address is cached. -/
def lookupAddr (s : Session) (rank : Host) : Outcome (Lookup × Session) := do
  let s ← match s.client.addressCache rank with
    | some _ => pure s
    | none => do
      let r ← fopen s (portsFile env)
      pure r.1
  let r := s.client.lookup cfg rank
  pure (r.1, { s with client := r.2 })

/-- `HG_Forward`, as in `Client.forward`. -/
def forwardOpen (s : Session) : Lookup → Outcome Session
  | .found _ => pure { s with requests := s.requests + 1 }
  | .null => .halted (.fault .assertForward)
  | .uninitialised => .halted (.fault .undefinedAddress)

def ftcClientCommGenOpenRpc (s : Session) (host : Host) : Outcome Session := do
  let r ← lookupAddr cfg env fopen s host
  let s ← loggingInfo env fopen r.2 host
  forwardOpen s r.1

/-- The wait for the reply to the latest request. -/
def ftcClientBlock (s : Session) (host : Host) (fd : Fd) : Session :=
  match env.replies s.requests with
  | some d => { s with client := { s.client with fdRedirMap := s.client.fdRedirMap.insert fd d } }
  | none => { s with client := s.client.timeOut host }

/-- `ftc_track_file` from the choice of the host on. -/
def requestOpen (s : Session) (p : Path) (fd : Fd) : Outcome (Session × Bool) :=
  if s.client.overLimit (cfg.host p) then pure (s, false)
  else do
    let s ← ftcClientCommGenOpenRpc cfg env fopen s (cfg.host p)
    pure (ftcClientBlock env s (cfg.host p) fd, true)

/-- `g_mercury_init` is set before the client's own log file is opened. -/
def setUp (s : Session) : Outcome Session :=
  if s.mercuryInit then pure s else initializeLog env fopen { s with mercuryInit := true }

def record (s : Session) (fd : Fd) (p : Path) : Session :=
  { s with client := { s.client with fdMap := s.client.fdMap.insert fd p } }

def ftcTrackFile (s : Session) (path : Path) (flags : BitVec 32) (fd : Fd) :
    Outcome (Session × Bool) :=
  match trackedPath cfg path flags with
  | none => pure (s, false)
  | some p => do
    let s ← setUp env fopen (record s fd p)
    requestOpen cfg env fopen s p fd

end Calls

def intercept (s : Session) : Session := { s with interceptions := s.interceptions + 1 }

/-- The wrapper of `fopen`, with at most so many interceptions nested in each other. -/
def fopen : ℕ → Session → Path → Outcome (Session × Bool)
  | 0, _, _ => .deeper
  | depth + 1, s, path =>
    if realFopen cfg env path then do
      let r ← ftcTrackFile cfg env (fopen depth) (intercept s) path oRdonly
        (env.fileno s.interceptions)
      pure (r.1, true)
    else pure (intercept s, false)

/-- The host that the wrapper of `fopen` sends a request to. -/
def trackedHost (path : Path) (flags : BitVec 32) : Option Host :=
  if realFopen cfg env path then (trackedPath cfg path flags).map cfg.host else none

/-- The host of the log file for requests to `host`. -/
def logHost (host : Host) : Option Host := trackedHost cfg env (logFilename env client host) oRdonly

variable {cfg env}

/-- What nested calls that send requests to `hs` leave as it was. -/
structure Kept (cfg : Config) (s s' : Session) (hs : List Host) : Prop where
  init : s'.mercuryInit = s.mercuryInit
  counters : ∀ h, s.client.timeoutCounters h ≤ s'.client.timeoutCounters h
  others : ∀ h, h ∉ hs → s'.client.timeoutCounters h = s.client.timeoutCounters h
  known : ∀ h, s'.client.Known cfg h ↔ s.client.Known cfg h

theorem Kept.of_same {s s' : Session} (hi : s'.mercuryInit = s.mercuryInit)
    (hc : s'.client.timeoutCounters = s.client.timeoutCounters)
    (ha : s'.client.addressCache = s.client.addressCache) {hs : List Host} : Kept cfg s s' hs :=
  ⟨hi, fun h ↦ by rw [hc], fun h _ ↦ by rw [hc], fun h ↦ by simp only [Known, ha]⟩

theorem Kept.mono {s s' : Session} {hs hs' : List Host} (h : Kept cfg s s' hs)
    (hsub : hs ⊆ hs') : Kept cfg s s' hs' :=
  ⟨h.init, h.counters, fun g hg ↦ h.others g fun hmem ↦ hg (hsub hmem), h.known⟩

theorem Kept.trans {s s' s'' : Session} {hs hs' : List Host} (h : Kept cfg s s' hs)
    (h' : Kept cfg s' s'' hs') : Kept cfg s s'' (hs ++ hs') := by
  refine ⟨h'.init.trans h.init, fun g ↦ (h.counters g).trans (h'.counters g), fun g hg ↦ ?_,
    fun g ↦ (h'.known g).trans (h.known g)⟩
  rw [List.mem_append, not_or] at hg
  exact (h'.others g hg.2).trans (h.others g hg.1)

theorem lookup_kept (s : Session) (host : Host) :
    Kept cfg s { s with client := (s.client.lookup cfg host).2 } [] := by
  exact ⟨rfl, fun _ ↦ le_rfl, fun _ _ ↦ rfl, fun g ↦ lookup_known_iff⟩

theorem portsFile_untracked : trackedHost cfg env (portsFile env) oRdonly = none := by
  have hmark : portsMark <:+: portsFile env := ⟨['.', '/'], env.jobid, rfl⟩
  simp [trackedHost, trackedPath, hmark]

theorem fopen_untracked {path : Path} (h : trackedHost cfg env path oRdonly = none) (n : ℕ)
    (s : Session) :
    fopen cfg env (n + 1) s path = .done (intercept s, realFopen cfg env path) := by
  unfold trackedHost at h
  by_cases hr : realFopen cfg env path = true
  · rw [if_pos hr, Option.map_eq_none_iff] at h
    simp [fopen, hr, ftcTrackFile, h]
  · simp [fopen, hr]

theorem fopen_tracked {path : Path} {host : Host}
    (h : trackedHost cfg env path oRdonly = some host) :
    ∃ p, cfg.host p = host ∧ ∀ n s, s.mercuryInit = true → ∃ s' fd, Kept cfg s s' [] ∧
      fopen cfg env (n + 1) s path = requestOpen cfg env (fopen cfg env n) s' p fd >>=
        fun r ↦ .done (r.1, true) := by
  unfold trackedHost at h
  obtain ⟨hr, h⟩ := Option.ite_none_right_eq_some.mp h
  obtain ⟨p, hp, rfl⟩ := Option.map_eq_some_iff.mp h
  refine ⟨p, rfl, fun n s hs ↦ ?_⟩
  refine ⟨record (intercept s) (env.fileno s.interceptions) p, env.fileno s.interceptions, ?_, ?_⟩
  · apply Kept.of_same <;> rfl
  · simp [fopen, hr, ftcTrackFile, hp, setUp, record, intercept, hs]

theorem lookupAddr_done (cfg : Config) (env : Setup) (n : ℕ) (s : Session) (host : Host) :
    ∃ r s', lookupAddr cfg env (fopen cfg env (n + 1)) s host = .done (r, s') ∧
      Kept cfg s s' [] ∧ ((∃ a, r = .found a) ↔ s.client.Known cfg host) := by
  unfold lookupAddr
  cases hc : s.client.addressCache host with
  | some a => exact ⟨_, _, rfl, lookup_kept s host, lookup_found_iff⟩
  | none =>
    have hk : Kept cfg s (intercept s) [] := by apply Kept.of_same <;> rfl
    refine ⟨_, _, ?_, hk.trans (lookup_kept (intercept s) host),
      lookup_found_iff.trans (hk.known host)⟩
    simp [fopen_untracked portsFile_untracked]

theorem genOpenRpc_eq (cfg : Config) (env : Setup) (n : ℕ) (s : Session) (host : Host) :
    ∃ r s', Kept cfg s s' [] ∧ ((∃ a, r = .found a) ↔ s.client.Known cfg host) ∧
      ftcClientCommGenOpenRpc cfg env (fopen cfg env (n + 1)) s host =
        fopen cfg env (n + 1) s' (logFilename env client host) >>= fun x ↦ forwardOpen x.1 r := by
  obtain ⟨r, s', hdone, hk, hr⟩ := lookupAddr_done cfg env n s host
  refine ⟨r, s', hk, hr, ?_⟩
  simp only [ftcClientCommGenOpenRpc, hdone, loggingInfo, Outcome.done_bind]
  cases fopen cfg env (n + 1) s' (logFilename env client host) with
  | deeper => rfl
  | halted e => rfl
  | done x => rfl

theorem block_kept (s : Session) (host : Host) (fd : Fd) :
    Kept cfg s (ftcClientBlock env s host fd) [host] := by
  unfold ftcClientBlock
  split
  case h_1 d hd => apply Kept.of_same <;> rfl
  case h_2 =>
    refine ⟨rfl, fun g ↦ ?_, fun g hg ↦ ?_, fun g ↦ Iff.rfl⟩
    · by_cases hg : g = host
      · simp [timeOut, hg]
      · simp [timeOut, hg]
    · simp [timeOut, List.mem_singleton.not.mp hg]

/-- One level of the recursion: what becomes of a request is decided by the `fopen` of the
log file of its host, and then by the address. -/
theorem request_of_log (env : Setup) (n : ℕ) {s : Session} {p : Path}
    (ho : ¬s.client.overLimit (cfg.host p)) (fd : Fd) : ∃ s', Kept cfg s s' [] ∧
      (fopen cfg env (n + 1) s' (logFilename env client (cfg.host p)) = .deeper →
        requestOpen cfg env (fopen cfg env (n + 1)) s p fd = .deeper) ∧
      (∀ e, fopen cfg env (n + 1) s' (logFilename env client (cfg.host p)) = .halted e →
        requestOpen cfg env (fopen cfg env (n + 1)) s p fd = .halted e) ∧
      ∀ x hs, fopen cfg env (n + 1) s' (logFilename env client (cfg.host p)) = .done x →
        Kept cfg s' x.1 hs →
        (s.client.Known cfg (cfg.host p) →
          ∃ r, requestOpen cfg env (fopen cfg env (n + 1)) s p fd = .done r ∧
            Kept cfg s r.1 (cfg.host p :: hs)) ∧
        (¬s.client.Known cfg (cfg.host p) →
          ∃ e, requestOpen cfg env (fopen cfg env (n + 1)) s p fd = .halted e) := by
  obtain ⟨r, s', hk, hr, heq⟩ := genOpenRpc_eq cfg env n s (cfg.host p)
  refine ⟨s', hk, fun hf ↦ ?_, fun e hf ↦ ?_, fun x hs hf hx ↦ ⟨fun ha ↦ ?_, fun ha ↦ ?_⟩⟩
  · simp [requestOpen, ho, heq, hf]
  · simp [requestOpen, ho, heq, hf]
  · obtain ⟨a, rfl⟩ := hr.mpr ha
    have hsent : Kept cfg x.1 { x.1 with requests := x.1.requests + 1 } [] := by
      apply Kept.of_same <;> rfl
    refine ⟨_, by simp [requestOpen, ho, heq, hf, forwardOpen]; rfl, ?_⟩
    refine ((hk.trans (hx.trans hsent)).trans (block_kept _ (cfg.host p) fd)).mono ?_
    simp
  · cases r with
    | found a => exact absurd (hr.mp ⟨a, rfl⟩) ha
    | null => exact ⟨.fault .assertForward, by simp [requestOpen, ho, heq, hf, forwardOpen]⟩
    | uninitialised =>
      exact ⟨.fault .undefinedAddress, by simp [requestOpen, ho, heq, hf, forwardOpen]⟩

theorem Kept.overLimit_iff {stop : Host → Prop} {s s' : Session} (h : Kept cfg s s' [])
    (hstop : ∀ g, s.client.overLimit g ↔ stop g) (g : Host) : s'.client.overLimit g ↔ stop g := by
  rw [← hstop, overLimit, overLimit, h.others g (List.not_mem_nil)]

theorem request_zero {s : Session} {p : Path} (ho : ¬s.client.overLimit (cfg.host p)) (fd : Fd) :
    requestOpen cfg env (fopen cfg env 0) s p fd = .deeper := by
  simp only [requestOpen, ho, ↓reduceIte, ftcClientCommGenOpenRpc, lookupAddr, loggingInfo, fopen]
  cases hc : s.client.addressCache (cfg.host p) <;> simp

theorem positive_of_enough {n : ℕ} {s : Session} {p : Path} {fd : Fd} {hs : List Host}
    (ho : ¬s.client.overLimit (cfg.host p))
    (hn : hs.length < n ∨ requestOpen cfg env (fopen cfg env n) s p fd ≠ .deeper) : n ≠ 0 := by
  rintro rfl
  exact hn.elim (Nat.not_lt_zero _) fun h ↦ h (request_zero ho fd)

/-- A walk over hosts that ends makes the request return, or halt the process when one of
its hosts has no address. -/
theorem request_of_chain {stop : Host → Prop} {h : Host} {hs : List Host}
    (hc : Chain stop (logHost cfg env) h hs) (n : ℕ) (s : Session) (p : Path) (fd : Fd)
    (hn : hs.length < n ∨ requestOpen cfg env (fopen cfg env n) s p fd ≠ .deeper)
    (hinit : s.mercuryInit = true) (hstop : ∀ g, s.client.overLimit g ↔ stop g)
    (hp : cfg.host p = h) :
    ((∀ g ∈ hs, s.client.Known cfg g) →
      ∃ r, requestOpen cfg env (fopen cfg env n) s p fd = .done r ∧ Kept cfg s r.1 hs) ∧
    ((∃ g ∈ hs, ¬s.client.Known cfg g) →
      ∃ e, requestOpen cfg env (fopen cfg env n) s p fd = .halted e) := by
  induction hc generalizing n s p fd with
  | stop hs =>
    have ho : s.client.overLimit (cfg.host p) := (hstop _).mpr (hp ▸ hs)
    refine ⟨fun _ ↦ ⟨(s, false), ?_, .of_same rfl rfl rfl⟩, by simp⟩
    simp [requestOpen, ho]
  | @last h hs hl =>
    subst hp
    have ho : ¬s.client.overLimit (cfg.host p) := fun ho ↦ hs ((hstop _).mp ho)
    obtain ⟨n, rfl⟩ := Nat.exists_eq_add_one_of_ne_zero (positive_of_enough ho hn)
    obtain ⟨s', -, -, -, hdone⟩ := request_of_log env n ho fd
    have hkept : Kept cfg s' (intercept s') [] := by apply Kept.of_same <;> rfl
    obtain ⟨hyes, hno⟩ := hdone _ [] (fopen_untracked hl n s') hkept
    refine ⟨fun hall ↦ hyes (hall _ (List.mem_singleton_self _)), fun hsome ↦ ?_⟩
    obtain ⟨g, hg, hna⟩ := hsome
    exact hno (List.mem_singleton.mp hg ▸ hna)
  | @more h h' hs hmore hl hc ih =>
    subst hp
    have ho : ¬s.client.overLimit (cfg.host p) := fun ho ↦ hmore ((hstop _).mp ho)
    obtain ⟨n, rfl⟩ := Nat.exists_eq_add_one_of_ne_zero (positive_of_enough ho hn)
    obtain ⟨s', hk, hdeep, hhalt, hdone⟩ := request_of_log env n ho fd
    obtain ⟨q, hq, hopen⟩ := fopen_tracked hl
    obtain ⟨s'', fd', hk', heq⟩ := hopen n s' (hk.init.trans hinit)
    have hkept := hk.trans hk'
    have hn' : hs.length < n ∨ requestOpen cfg env (fopen cfg env n) s'' q fd' ≠ .deeper := by
      refine hn.imp (fun hlt ↦ by simpa using hlt) fun hne hd ↦ hne (hdeep ?_)
      rw [heq, hd, Outcome.deeper_bind]
    obtain ⟨hyes, hno⟩ := ih n s'' q fd' hn' (hkept.init.trans hinit) (hkept.overLimit_iff hstop) hq
    have hknown (g : Host) : s''.client.Known cfg g ↔ s.client.Known cfg g := hkept.known g
    simp only [hknown] at hyes hno
    constructor
    · intro hall
      rw [List.forall_mem_cons] at hall
      obtain ⟨r, hr, hkr⟩ := hyes hall.2
      rw [hr, Outcome.done_bind] at heq
      exact (hdone _ hs heq (hk'.trans hkr)).1 hall.1
    · intro hsome
      by_cases hrest : ∃ g ∈ hs, ¬s.client.Known cfg g
      · obtain ⟨e, he⟩ := hno hrest
        rw [he, Outcome.halted_bind] at heq
        exact ⟨e, hhalt e heq⟩
      · push Not at hrest
        obtain ⟨r, hr, hkr⟩ := hyes hrest
        rw [hr, Outcome.done_bind] at heq
        refine (hdone _ hs heq (hk'.trans hkr)).2 fun ha ↦ ?_
        obtain ⟨g, hg, hna⟩ := hsome
        rcases List.mem_cons.mp hg with rfl | hg
        · exact hna ha
        · exact hna (hrest g hg)

theorem request_of_enough {stop : Host → Prop} {s : Session} {p : Path} {fd : Fd} {hs : List Host}
    (hc : Chain stop (logHost cfg env) (cfg.host p) hs) {n : ℕ} (hn : hs.length < n)
    (hinit : s.mercuryInit = true) (hstop : ∀ g, s.client.overLimit g ↔ stop g) :
    requestOpen cfg env (fopen cfg env n) s p fd ≠ .deeper := by
  obtain ⟨hyes, hno⟩ := request_of_chain hc n s p fd (.inl hn) hinit hstop rfl
  by_cases hall : ∀ g ∈ hs, s.client.Known cfg g
  · obtain ⟨r, hr, -⟩ := hyes hall
    simp [hr]
  · push Not at hall
    obtain ⟨e, he⟩ := hno hall
    simp [he]

/-- A request that needs finitely many nested interceptions walks over finitely many hosts. -/
theorem ends_of_request {stop : Host → Prop} {n : ℕ} {s : Session} {p : Path} {fd : Fd}
    (h : requestOpen cfg env (fopen cfg env n) s p fd ≠ .deeper) (hinit : s.mercuryInit = true)
    (hstop : ∀ g, s.client.overLimit g ↔ stop g) : Ends stop (logHost cfg env) (cfg.host p) := by
  induction n generalizing s p fd with
  | zero =>
    by_cases ho : s.client.overLimit (cfg.host p)
    · exact ⟨[], .stop ((hstop _).mp ho)⟩
    · exact absurd (request_zero ho fd) h
  | succ n ih =>
    by_cases ho : s.client.overLimit (cfg.host p)
    · exact ⟨[], .stop ((hstop _).mp ho)⟩
    · cases hl : logHost cfg env (cfg.host p) with
      | none => exact .of_next hl
      | some h' =>
        obtain ⟨s', hk, hdeep, -, -⟩ := request_of_log env n ho fd
        obtain ⟨q, rfl, hopen⟩ := fopen_tracked hl
        obtain ⟨s'', fd', hk', heq⟩ := hopen n s' (hk.init.trans hinit)
        have hkept := hk.trans hk'
        apply Ends.of_some hl (ih _ (hkept.init.trans hinit) (hkept.overLimit_iff hstop))
        · exact fd'
        · intro hd
          rw [hd, Outcome.deeper_bind] at heq
          exact h (hdeep heq)

variable (cfg env)

/-- Following hosts from `h` on, each to the host of its log file, one comes to a host over
the limit or to a log file that does not open or is not tracked. -/
def Walks (s : Session) (h : Host) : Prop := Ends s.client.overLimit (logHost cfg env) h

/-- The walk comes to its end, but one of the hosts it passes has no address. -/
def Halts (s : Session) (h : Host) : Prop :=
  ∃ hs, Chain s.client.overLimit (logHost cfg env) h hs ∧ ∃ g ∈ hs, ¬s.client.Known cfg g

def ownLog : Path := logFilename env client env.rank

/-- The process ends while it opens its own log file. -/
def SetUpHalts (s : Session) : Prop :=
  realFopen cfg env (ownLog env) = false ∨
    ∃ h ∈ trackedHost cfg env (ownLog env) oRdonly, Halts cfg env s h

def SetUpEnds (s : Session) : Prop :=
  ∀ h ∈ trackedHost cfg env (ownLog env) oRdonly, Walks cfg env s h

/-- When opening a path needs finitely many nested interceptions: it is not tracked, or the
walk from its host ends, and in the set-up the walk from the host of the own log file has
ended before or the process has. -/
def Stops (s : Session) (path : Path) (flags : BitVec 32) : Prop :=
  ∀ p ∈ trackedPath cfg path flags,
    (s.mercuryInit = true ∧ Walks cfg env s (cfg.host p)) ∨
      (s.mercuryInit = false ∧
        (SetUpHalts cfg env s ∨ SetUpEnds cfg env s ∧ Walks cfg env s (cfg.host p)))

variable {cfg env}

theorem halts_iff {s : Session} {h : Host} {hs : List Host}
    (hc : Chain s.client.overLimit (logHost cfg env) h hs) :
    Halts cfg env s h ↔ ∃ g ∈ hs, ¬s.client.Known cfg g := by
  constructor
  · intro hh
    obtain ⟨hs', hc', hg⟩ := hh
    rwa [hc.unique hc']
  · exact fun hg ↦ ⟨hs, hc, hg⟩

theorem setUpEnds_of_halts {s : Session} (h : SetUpHalts cfg env s) : SetUpEnds cfg env s := by
  intro g hg
  rcases h with hr | ⟨g', hg', hs, hc, -⟩
  · simp [trackedHost, hr] at hg
  · obtain rfl : g' = g := Option.mem_unique hg' hg
    exact ⟨hs, hc⟩

theorem initializeLog_eq (open' : Session → Path → Outcome (Session × Bool)) (s : Session) :
    initializeLog env open' s = open' s (ownLog env) >>= fun r ↦
      if r.2 then .done r.1 else .halted .exit := rfl

theorem ends_of_initializeLog {n : ℕ} {s : Session}
    (h : initializeLog env (fopen cfg env n) s ≠ .deeper) (hinit : s.mercuryInit = true) :
    SetUpEnds cfg env s := by
  intro g hg
  have hopen : fopen cfg env n s (ownLog env) ≠ .deeper := (Outcome.bind_deeper h).1
  cases n with
  | zero => exact absurd rfl hopen
  | succ n =>
    obtain ⟨q, rfl, hq⟩ := fopen_tracked hg
    obtain ⟨s', fd, hk, heq⟩ := hq n s hinit
    rw [heq] at hopen
    exact ends_of_request (Outcome.bind_deeper hopen).1 (hk.init.trans hinit)
      (hk.overLimit_iff fun _ ↦ Iff.rfl)

theorem positive_of_initialized {N n : ℕ} {s : Session} (hN : 0 < N)
    (hn : N ≤ n ∨ initializeLog env (fopen cfg env n) s ≠ .deeper) : n ≠ 0 := by
  rintro rfl
  obtain hle | hdone := hn
  · omega
  · exact hdone rfl

theorem initializeLog_of_ends {s : Session} (hinit : s.mercuryInit = true)
    (hends : SetUpEnds cfg env s) :
    ∃ N, ∀ n, N ≤ n ∨ initializeLog env (fopen cfg env n) s ≠ .deeper →
      (SetUpHalts cfg env s → ∃ e, initializeLog env (fopen cfg env n) s = .halted e) ∧
      (¬SetUpHalts cfg env s → ∃ s' hs, initializeLog env (fopen cfg env n) s = .done s' ∧
        Kept cfg s s' hs ∧ ∀ g ∈ hs, Walks cfg env s g) := by
  cases hl : trackedHost cfg env (ownLog env) oRdonly with
  | none =>
    refine ⟨1, fun n hn ↦ ?_⟩
    obtain ⟨n, rfl⟩ := Nat.exists_eq_add_one_of_ne_zero (positive_of_initialized (by simp) hn)
    have hopen : initializeLog env (fopen cfg env (n + 1)) s =
        if realFopen cfg env (ownLog env) then .done (intercept s) else .halted .exit := by
      rw [initializeLog_eq, fopen_untracked hl, Outcome.done_bind]
    have hhalts : SetUpHalts cfg env s ↔ realFopen cfg env (ownLog env) = false := by
      simp [SetUpHalts, hl]
    rw [hhalts, hopen]
    by_cases hr : realFopen cfg env (ownLog env) = true
    · have hk : Kept cfg s (intercept s) [] := by apply Kept.of_same <;> rfl
      exact ⟨by simp [hr], fun _ ↦ ⟨intercept s, [], by simp [hr], hk, by simp⟩⟩
    · simp [hr]
  | some h =>
    obtain ⟨hs, hc⟩ := hends h hl
    obtain ⟨hr, -⟩ := Option.ite_none_right_eq_some.mp hl
    obtain ⟨q, rfl, hopen⟩ := fopen_tracked hl
    refine ⟨hs.length + 2, fun n hn ↦ ?_⟩
    obtain ⟨n, rfl⟩ := Nat.exists_eq_add_one_of_ne_zero (positive_of_initialized (by simp) hn)
    obtain ⟨s', fd, hk, heq⟩ := hopen n s hinit
    have hlog : initializeLog env (fopen cfg env (n + 1)) s =
        requestOpen cfg env (fopen cfg env n) s' q fd >>= fun r ↦ .done r.1 := by
      rw [initializeLog_eq, heq]
      cases requestOpen cfg env (fopen cfg env n) s' q fd <;> rfl
    have hn' : hs.length < n ∨ requestOpen cfg env (fopen cfg env n) s' q fd ≠ .deeper := by
      refine hn.imp (fun hle ↦ by omega) fun hne hd ↦ hne ?_
      rw [hlog, hd, Outcome.deeper_bind]
    obtain ⟨hyes, hno⟩ := request_of_chain hc n s' q fd hn' (hk.init.trans hinit)
      (hk.overLimit_iff fun _ ↦ Iff.rfl) rfl
    simp only [hk.known] at hyes hno
    have hhalts : SetUpHalts cfg env s ↔ ∃ g ∈ hs, ¬s.client.Known cfg g := by
      rw [← halts_iff hc]
      simp [SetUpHalts, hr, hl]
    rw [hhalts, hlog]
    constructor
    · intro hsome
      obtain ⟨e, he⟩ := hno hsome
      exact ⟨e, by rw [he, Outcome.halted_bind]⟩
    · intro hall
      push Not at hall
      obtain ⟨r, hr', hkr⟩ := hyes hall
      exact ⟨r.1, hs, by rw [hr', Outcome.done_bind], hk.trans hkr, fun g hg ↦ hc.ends_of_mem hg⟩

theorem setUp_record {s : Session} (hinit : s.mercuryInit = false) (n : ℕ) (fd : Fd) (p : Path) :
    setUp env (fopen cfg env n) (record s fd p) =
      initializeLog env (fopen cfg env n) { record s fd p with mercuryInit := true } := by
  simp [setUp, record, hinit]

theorem stops_of_track {n : ℕ} {s : Session} {path : Path} {flags : BitVec 32} {fd : Fd}
    (h : ftcTrackFile cfg env (fopen cfg env n) s path flags fd ≠ .deeper) :
    Stops cfg env s path flags := by
  intro p hp
  obtain ⟨hset, hrest⟩ := Outcome.bind_deeper (x := setUp env (fopen cfg env n) (record s fd p))
    (by simpa only [ftcTrackFile, Option.mem_def.mp hp] using h)
  cases hinit : s.mercuryInit with
  | true =>
    have hdone : setUp env (fopen cfg env n) (record s fd p) = .done (record s fd p) := by
      simp [setUp, record, hinit]
    exact .inl ⟨rfl, ends_of_request (hrest _ hdone) hinit fun _ ↦ Iff.rfl⟩
  | false =>
    rw [setUp_record hinit] at hset hrest
    have hends : SetUpEnds cfg env { record s fd p with mercuryInit := true } :=
      ends_of_initializeLog hset rfl
    refine .inr ⟨rfl, ?_⟩
    by_cases hh : SetUpHalts cfg env s
    · exact .inl hh
    · obtain ⟨N, hN⟩ := initializeLog_of_ends rfl hends
      obtain ⟨s', hs, hdone, hk, hwalks⟩ := (hN n (.inr hset)).2 hh
      have hlast := ends_of_request (hrest s' hdone) hk.init fun _ ↦ Iff.rfl
      refine .inr ⟨hends, hlast.of_stops fun g hg ↦ ?_⟩
      -- the set-up may have put a host over the limit, but only one from which the walk ends
      by_cases hmem : g ∈ hs
      · exact hwalks g hmem
      · refine ⟨[], .stop ?_⟩
        rwa [overLimit, hk.others g hmem] at hg

theorem track_of_stops {s : Session} {path : Path} {flags : BitVec 32} (fd : Fd)
    (h : Stops cfg env s path flags) :
    ∃ n, ftcTrackFile cfg env (fopen cfg env n) s path flags fd ≠ .deeper := by
  cases hp : trackedPath cfg path flags with
  | none => exact ⟨0, by simp [ftcTrackFile, hp]⟩
  | some p =>
    have htrack (n : ℕ) : ftcTrackFile cfg env (fopen cfg env n) s path flags fd =
        setUp env (fopen cfg env n) (record s fd p) >>= fun s' ↦
          requestOpen cfg env (fopen cfg env n) s' p fd := by
      simp only [ftcTrackFile, hp]
    rcases h p hp with ⟨hinit, hs, hc⟩ | ⟨hinit, hset⟩
    · have hdone (n : ℕ) : setUp env (fopen cfg env n) (record s fd p) = .done (record s fd p) := by
        simp [setUp, record, hinit]
      refine ⟨hs.length + 1, ?_⟩
      rw [htrack, hdone, Outcome.done_bind]
      exact request_of_enough hc (Nat.lt_succ_self _) hinit fun _ ↦ Iff.rfl
    · have hends : SetUpEnds cfg env { record s fd p with mercuryInit := true } :=
        hset.elim setUpEnds_of_halts And.left
      obtain ⟨N, hN⟩ := initializeLog_of_ends rfl hends
      by_cases hhalts : SetUpHalts cfg env s
      · obtain ⟨e, he⟩ := (hN N (.inl le_rfl)).1 hhalts
        refine ⟨N, ?_⟩
        rw [htrack, setUp_record hinit, he]
        simp
      · obtain ⟨hs, hc⟩ := (hset.resolve_left hhalts).2
        refine ⟨N + hs.length + 1, ?_⟩
        obtain ⟨s', hs', hdone, hk, -⟩ := (hN (N + hs.length + 1) (.inl (by omega))).2 hhalts
        rw [htrack, setUp_record hinit, hdone, Outcome.done_bind]
        -- timeouts in the set-up can only make the walk shorter
        obtain ⟨m, hm, hle⟩ := hc.mono fun g hg ↦ le_trans hg (hk.counters g)
        exact request_of_enough hm (by omega) hk.init fun _ ↦ Iff.rfl

/-- Opening a path makes finitely many nested interceptions exactly if its walk stops. -/
theorem interception_stops_iff (cfg : Config) (env : Setup) (s : Session) (path : Path) :
    (∀ flags fd, (∃ depth, ftcTrackFile cfg env (fopen cfg env depth) s path flags fd ≠ .deeper) ↔
      Stops cfg env s path flags) ∧
    ((∃ depth, fopen cfg env depth s path ≠ .deeper) ↔
      (realFopen cfg env path = true → Stops cfg env s path oRdonly)) := by
  refine ⟨fun flags fd ↦ ⟨?_, track_of_stops fd⟩, ?_, ?_⟩
  · intro h
    obtain ⟨n, hn⟩ := h
    exact stops_of_track hn
  · intro h hr
    obtain ⟨n, hn⟩ := h
    cases n with
    | zero => exact absurd rfl hn
    | succ n =>
      rw [fopen, if_pos hr] at hn
      have hstops : Stops cfg env (intercept s) path oRdonly :=
        stops_of_track (Outcome.bind_deeper hn).1
      exact hstops
  · intro h
    by_cases hr : realFopen cfg env path = true
    · obtain ⟨n, hn⟩ := track_of_stops (s := intercept s) (env.fileno s.interceptions) (h hr)
      refine ⟨n + 1, ?_⟩
      rw [fopen, if_pos hr]
      cases ht : ftcTrackFile cfg env (fopen cfg env n) (intercept s) path oRdonly
        (env.fileno s.interceptions) with
      | deeper => exact absurd ht hn
      | halted e => simp
      | done r => simp
    · exact ⟨1, by simp [fopen, hr]⟩

/-- Logs in the served directory: the log file of host 0 is placed on host 0 itself. -/
def loggingConfig : Config := { sampleConfig with canonical := some }

def loggingSetup : Setup where
  logDir := ['/', 'd']
  jobid := ['1']
  rank := 0
  opens _ := true
  fileno n := n + 4
  replies _ := some 7

/-- A process that logs into the directory it serves never forwards its first request. -/
theorem interception_endless : ¬∀ (cfg : Config) (env : Setup) (s : Session) (path : Path)
    (flags : BitVec 32) (fd : Fd),
    ∃ depth, ftcTrackFile cfg env (fopen cfg env depth) s path flags fd ≠ .deeper := by
  intro h
  obtain ⟨n, hn⟩ := h loggingConfig loggingSetup ⟨sampleClient, false, 0, 0⟩ samplePath 0 3
  have hpath : trackedPath loggingConfig samplePath 0 = some samplePath := by decide +kernel
  have hown : trackedHost loggingConfig loggingSetup (ownLog loggingSetup) oRdonly = some 0 := by
    decide +kernel
  have hover : ¬sampleClient.overLimit 0 := by decide +kernel
  have hwalks : ¬Walks loggingConfig loggingSetup ⟨sampleClient, false, 0, 0⟩ 0 :=
    not_ends_of_closed (P := (· = 0)) (by rintro h rfl; exact ⟨hover, 0, hown, rfl⟩) rfl
  rcases stops_of_track hn samplePath hpath with ⟨hinit, -⟩ | ⟨-, hset | ⟨hends, -⟩⟩
  · cases hinit
  · exact hwalks (setUpEnds_of_halts hset 0 hown)
  · exact hwalks (hends 0 hown)

section Bounds

variable {s : Session}

/-- Logging apart from the served files stops every interception. -/
theorem stops_of_apart
    (hapart : ∀ rank, trackedPath cfg (logFilename env client rank) oRdonly = none) (path : Path)
    (flags : BitVec 32) : Stops cfg env s path flags := by
  have hnone (rank : ℤ) : trackedHost cfg env (logFilename env client rank) oRdonly = none := by
    simp [trackedHost, hapart rank]
  intro p _
  have hwalks : Walks cfg env s (cfg.host p) := .of_next (hnone _)
  cases hinit : s.mercuryInit with
  | true => exact .inl ⟨rfl, hwalks⟩
  | false =>
    refine .inr ⟨rfl, .inr ⟨fun h hh ↦ ?_, hwalks⟩⟩
    rw [ownLog, hnone] at hh
    cases hh

/-- The walk from a placed path passes each server once at most. -/
theorem walk_length_le {p : Path} {hs : List Host} (hpos : 0 < cfg.serverCount)
    (hc : Chain s.client.overLimit (logHost cfg env) (cfg.host p) hs) :
    hs.length ≤ cfg.serverCount := by
  have hmem : ∀ g ∈ hs, ∃ q, cfg.host q = g := by
    generalize hh : cfg.host p = h at hc
    induction hc generalizing p with
    | stop => simp
    | last => simpa using ⟨p, hh⟩
    | more hs hn hl ih =>
      obtain ⟨q, hq, -⟩ := fopen_tracked hn
      exact List.forall_mem_cons.mpr ⟨⟨p, hh⟩, ih hq⟩
  have hcard := hc.length_le
    (s := (Finset.range cfg.serverCount).image fun k : ℕ ↦ Words.int32 (k : ℤ)) ?_
  · exact hcard.trans (Finset.card_image_le.trans (Finset.card_range _).le)
  · intro g hg
    obtain ⟨q, rfl⟩ := hmem g hg
    exact Finset.mem_image.mpr ⟨_, Finset.mem_range.mpr (Nat.mod_lt _ hpos), rfl⟩

/-- A request that is forwarded at all needs no more nested interceptions than there are
servers, and one. -/
theorem request_depth {p : Path} {fd : Fd} (hpos : 0 < cfg.serverCount)
    (hinit : s.mercuryInit = true) (h : Walks cfg env s (cfg.host p)) :
    requestOpen cfg env (fopen cfg env (cfg.serverCount + 1)) s p fd ≠ .deeper := by
  obtain ⟨hs, hc⟩ := h
  exact request_of_enough hc (Nat.lt_succ_of_le (walk_length_le hpos hc)) hinit fun _ ↦ Iff.rfl

end Bounds

end FTCache.Interception
