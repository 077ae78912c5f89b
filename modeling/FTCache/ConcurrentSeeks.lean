import FTCache.Library.Runs
import FTCache.World
import Mathlib.Data.Fintype.Defs

namespace FTCache.ConcurrentSeeks

open Runs Words Client

/-- Where a thread stands in `ftc_remote_lseek`. A thread that is looking is
about to take `done_mutex` and to test `done`; one asleep is in `pthread_cond_wait`. -/
inductive Place
  | outside
  | reset (path : Path) (fd : Fd) (offset whence : ℤ)
  | looking
  | asleep
  deriving DecidableEq

/-- A client process with threads `T` that seek. `sent` holds the requests in
flight. `answer`, the value that came for the latest request of a thread, and
`trace`, the values returned beside it, are history variables. -/
structure Process (T : Type) where
  client : Client
  places : T → Place
  sent : T → Option Sent
  answer : T → Option ℤ
  trace : List (T × ℤ × Option ℤ)

/-- Each region under `done_mutex` is one step. `woken` is the thread that
`pthread_cond_signal` picks; threads may also wake up for no reason. -/
inductive Label (T : Type)
  | setUp (t : T) (fd offset whence : ℤ)
  | send (t : T)
  | reply (t : T) (out : ℤ) (woken : Option T)
  | look (t : T)
  | spurious (t : T)
  deriving DecidableEq

/-- The first lines of `ftc_client_comm_gen_seek_rpc`. -/
def resetSeek (cl : Client) : Client := { cl with seekDone := 0, readRet := -1 }

/-- The rest of `ftc_client_comm_gen_seek_rpc`. -/
def sendSeek (cfg : Config) (cl : Client) (path : Path) (fd : Fd) (offset whence : ℤ) :
    Except Fault (Client × Sent) :=
  let (addr, cl) := cl.lookup cfg (cfg.host path)
  forward true ({ cl with fdRedirMap := cl.fdRedirMap.touch fd },
    ⟨cfg.host path, path, .seekRpc ⟨cl.fdRedirMap.index fd, offset, whence⟩, .seekCb⟩) addr

/-- Without other threads the two parts are one. -/
theorem genSeekRpc_eq (cfg : Config) (cl : Client) (path : Path) (fd : Fd) (offset whence : ℤ) :
    cl.ftcClientCommGenSeekRpc cfg true (cfg.host path) path fd offset whence =
      sendSeek cfg (resetSeek cl) path fd offset whence :=
  rfl

namespace Process

variable {T : Type} [DecidableEq T] (cfg : Config) (s : Process T)

def move (t : T) (p : Place) : Process T := { s with places := Function.update s.places t p }

def setUp (t : T) (fd offset whence : ℤ) : Option (Process T) :=
  (s.client.fdMap fd).map fun path ↦
    { s with
      client := resetSeek s.client
      answer := Function.update s.answer t none }.move t (.reset path fd (int32 offset) whence)

def send (t : T) (path : Path) (fd : Fd) (offset whence : ℤ) : Option (Process T) :=
  ((sendSeek cfg s.client path fd offset whence).toOption).map fun r ↦
    { s with
      client := r.1
      sent := Function.update s.sent t (some r.2) }.move t .looking

/-- `pthread_cond_signal`: some thread that is asleep is woken, if there is one. -/
def signal [Fintype T] : Option T → Option (Process T)
  | some u => if s.places u = .asleep then some (s.move u .looking) else none
  | none => if ∀ u, s.places u ≠ .asleep then some s else none

/-- `ftc_seek_cb` for the request of `t`. -/
def reply [Fintype T] (t : T) (out : ℤ) (woken : Option T) : Option (Process T) :=
  if (s.sent t).isSome then
    { s with
      client := s.client.ftcSeekCb out
      sent := Function.update s.sent t none
      answer := Function.update s.answer t (some out) }.signal woken
  else none

/-- One turn of the loop of `ftc_seek_block`. -/
def look (t : T) : Process T :=
  if s.client.seekDone = 1 then
    { s with trace := s.trace ++ [(t, s.client.readRet, s.answer t)] }.move t .outside
  else s.move t .asleep

def step [Fintype T] (s : Process T) : Label T → Option (Process T)
  | .setUp t fd offset whence =>
    if s.places t = .outside then s.setUp t fd offset whence else none
  | .send t =>
    match s.places t with
    | .reset path fd offset whence => s.send cfg t path fd offset whence
    | _ => none
  | .reply t out woken => s.reply t out woken
  | .look t => if s.places t = .looking then some (s.look t) else none
  | .spurious t => if s.places t = .asleep then some (s.move t .looking) else none

end Process

def start (T : Type) (cl : Client) : Process T where
  client := cl
  places := fun _ ↦ .outside
  sent := fun _ ↦ none
  answer := fun _ ↦ none
  trace := []

variable {T : Type}

/-- Each call has returned the answer to its own request. -/
def OwnResults (s : Process T) : Prop := ∀ e ∈ s.trace, e.2.2 = some e.2.1

/-- The thread sleeps on although its answer has come and no wake-up is left. -/
def Stranded (s : Process T) (t : T) : Prop :=
  s.places t = .asleep ∧ (s.answer t).isSome ∧ ∀ u, s.places u ≠ .looking

/-- A seek is set up while no other is between its set-up and its return. -/
def Serial (s : Process T) : Label T → Prop
  | .setUp _ _ _ _ => ∀ u, s.places u = .outside
  | _ => True

instance [Fintype T] (s : Process T) : (l : Label T) → Decidable (Serial s l)
  | .setUp _ _ _ _ => inferInstanceAs (Decidable (∀ u, s.places u = .outside))
  | .send _ => isTrue trivial
  | .reply _ _ _ => isTrue trivial
  | .look _ => isTrue trivial
  | .spurious _ => isTrue trivial

/-- The one seek that is going on, at each stage of its request. -/
inductive Seeking (s : Process T) (t : T) : Prop
  | setUp (path : Path) (fd : Fd) (offset whence : ℤ)
      (hp : s.places t = .reset path fd offset whence) (hs : s.sent t = none)
      (ha : s.answer t = none) (hd : s.client.seekDone = 0)
  | awaiting (hp : s.places t = .looking ∨ s.places t = .asleep) (hs : (s.sent t).isSome)
      (ha : s.answer t = none) (hd : s.client.seekDone = 0)
  | answered (hp : s.places t = .looking) (hs : s.sent t = none)
      (ha : s.answer t = some s.client.readRet) (hd : s.client.seekDone = 1)

/-- All threads but those in `A` are outside, with nothing in flight. -/
def Others (s : Process T) (A : Set T) : Prop :=
  ∀ u ∉ A, s.places u = .outside ∧ s.sent u = none

/-- At most one seek is going on, and all that returned had their own results. -/
structure InOrder (s : Process T) : Prop where
  one : Others s ∅ ∨ ∃ t, Seeking s t ∧ Others s {t}
  results : OwnResults s

variable {cfg : Config} {s s' : Process T}

theorem Others.off {A : Set T} (h : Others s A) {u : T} (hu : s.places u ≠ .outside) : u ∈ A := by
  by_contra hA
  exact hu (h u hA).1

theorem InOrder.seeking (h : InOrder s) {t : T}
    (ht : s.places t ≠ .outside ∨ (s.sent t).isSome) : Seeking s t ∧ Others s {t} := by
  have hnot {A : Set T} (ho : Others s A) : t ∈ A := by
    by_contra hA
    obtain ⟨hp, hs⟩ := ho t hA
    simp [hp, hs] at ht
  rcases h.one with ho | ⟨t', hseek, ho⟩
  · exact absurd (hnot ho) (Set.notMem_empty t)
  · obtain rfl : t = t' := hnot ho
    exact ⟨hseek, ho⟩

theorem start_inOrder (T : Type) (cl : Client) : InOrder (start T cl) := by
  refine ⟨.inl fun u _ ↦ ⟨rfl, rfl⟩, ?_⟩
  intro e he
  simp [start] at he

theorem sendSeek_done {cl : Client} {path : Path} {fd : Fd} {offset whence : ℤ}
    {r : Client × Sent} (h : sendSeek cfg cl path fd offset whence = .ok r) :
    r.1.seekDone = cl.seekDone := by
  rw [forward_ok h]

variable [DecidableEq T]

theorem Others.update {p : T → Place} {q : T → Option Sent} {cl : Client} {a : T → Option ℤ}
    {tr : List (T × ℤ × Option ℤ)} {t : T} {pt : Place} {st : Option Sent}
    (h : Others ⟨cl, p, q, a, tr⟩ {t}) {cl' : Client} {a' : T → Option ℤ}
    {tr' : List (T × ℤ × Option ℤ)} :
    Others ⟨cl', Function.update p t pt, Function.update q t st, a', tr'⟩ {t} := by
  intro u hu
  have hne : u ≠ t := hu
  simpa [hne] using h u hu

theorem setUp_inOrder {t : T} {fd offset whence : ℤ} (h : InOrder s)
    (hserial : ∀ u, s.places u = .outside) (hs : s.setUp t fd offset whence = some s') :
    InOrder s' := by
  obtain ⟨path, -, rfl⟩ := Option.map_eq_some_iff.mp hs
  have hsent (u : T) : s.sent u = none := by
    by_contra hne
    obtain ⟨hseek, -⟩ := h.seeking (.inr (Option.isSome_iff_ne_none.mpr hne))
    have hu := hserial u
    cases hseek with
    | setUp _ _ _ _ hp => simp [hu] at hp
    | awaiting hp => simp [hu] at hp
    | answered hp => simp [hu] at hp
  refine ⟨.inr ⟨t, ?_, ?_⟩, h.results⟩
  · exact .setUp path fd (int32 offset) whence (by simp [Process.move]) (hsent t)
      (by simp [Process.move]) rfl
  · intro u hu
    have hne : u ≠ t := hu
    exact ⟨by simp [Process.move, hne, hserial u], hsent u⟩

theorem send_inOrder {t : T} {path : Path} {fd offset whence : ℤ} (h : InOrder s)
    (hp : s.places t = .reset path fd offset whence)
    (hs : s.send cfg t path fd offset whence = some s') : InOrder s' := by
  obtain ⟨hseek, hothers⟩ := h.seeking (t := t) (.inl (by simp [hp]))
  obtain ⟨r, hr, rfl⟩ := Option.map_eq_some_iff.mp hs
  have hdone : r.1.seekDone = s.client.seekDone := by
    cases hx : sendSeek cfg s.client path fd offset whence with
    | error e =>
      rw [hx] at hr
      cases hr
    | ok r' =>
      rw [hx] at hr
      cases hr
      exact sendSeek_done hx
  refine ⟨.inr ⟨t, ?_, hothers.update⟩, h.results⟩
  cases hseek with
  | setUp _ _ _ _ _ _ ha hd =>
    exact .awaiting (.inl (by simp [Process.move])) (by simp [Process.move]) ha (hdone.trans hd)
  | awaiting hp' => simp [hp] at hp'
  | answered hp' => simp [hp] at hp'

theorem look_inOrder {t : T} (h : InOrder s) (hp : s.places t = .looking) :
    InOrder (s.look t) := by
  obtain ⟨hseek, hothers⟩ := h.seeking (t := t) (.inl (by simp [hp]))
  unfold Process.look
  cases hseek with
  | setUp _ _ _ _ hp' => simp [hp] at hp'
  | awaiting _ hsent ha hd =>
    rw [if_neg (by omega)]
    refine ⟨.inr ⟨t, ?_, ?_⟩, h.results⟩
    · exact .awaiting (.inr (by simp [Process.move])) hsent ha hd
    · intro u hu
      have hne : u ≠ t := hu
      simpa [Process.move, hne] using hothers u hu
  | answered _ hsent ha hd =>
    rw [if_pos hd]
    refine ⟨.inl ?_, ?_⟩
    · intro u _
      by_cases hu : u = t
      · subst hu
        exact ⟨by simp [Process.move], hsent⟩
      · simpa [Process.move, hu] using hothers u hu
    · intro e he
      rcases List.mem_append.mp he with he | he
      · exact h.results e he
      · obtain rfl : e = (t, s.client.readRet, s.answer t) := by simpa using he
        exact ha

theorem spurious_inOrder {t : T} (h : InOrder s) (hp : s.places t = .asleep) :
    InOrder (s.move t .looking) := by
  obtain ⟨hseek, hothers⟩ := h.seeking (t := t) (.inl (by simp [hp]))
  refine ⟨.inr ⟨t, ?_, ?_⟩, h.results⟩
  · cases hseek with
    | setUp _ _ _ _ hp' => simp [hp] at hp'
    | awaiting _ hsent ha hd =>
      exact .awaiting (.inl (by simp [Process.move])) hsent ha hd
    | answered hp' => simp [hp] at hp'
  · intro u hu
    have hne : u ≠ t := hu
    simpa [Process.move, hne] using hothers u hu

theorem reply_inOrder [Fintype T] {t : T} {out : ℤ} {woken : Option T} (h : InOrder s)
    (hs : s.reply t out woken = some s') : InOrder s' := by
  unfold Process.reply at hs
  split at hs
  case isFalse => cases hs
  case isTrue hsent =>
    obtain ⟨hseek, hothers⟩ := h.seeking (t := t) (.inr hsent)
    cases hseek with
    | setUp _ _ _ _ _ hnone => simp [hnone] at hsent
    | answered _ hnone => simp [hnone] at hsent
    | awaiting hp _ ha hd =>
      have hdone : (s.client.ftcSeekCb out).seekDone = 1 := by simp [ftcSeekCb, hd]
      have hothers' : ∀ u ∉ ({t} : Set T), s.places u = .outside ∧
          Function.update s.sent t none u = none := by
        intro u hu
        have hne : u ≠ t := hu
        simpa [hne] using hothers u hu
      cases woken with
      | some u =>
        -- only the thread that seeks can be asleep
        simp only [Process.signal] at hs
        split at hs
        case isFalse => cases hs
        case isTrue hu =>
          cases hs
          obtain rfl : u = t := hothers.off (by simp [hu])
          refine ⟨.inr ⟨u, ?_, ?_⟩, h.results⟩
          · exact .answered (by simp [Process.move]) (by simp [Process.move])
              (by simp [Process.move, ftcSeekCb]) hdone
          · intro v hv
            have hne : v ≠ u := hv
            simpa [Process.move, hne] using hothers v hv
      | none =>
        simp only [Process.signal] at hs
        split at hs
        case isFalse => cases hs
        case isTrue hnone =>
          cases hs
          refine ⟨.inr ⟨t, ?_, hothers'⟩, h.results⟩
          exact .answered (hp.resolve_right (hnone t)) (by simp) (by simp [ftcSeekCb]) hdone

theorem step_inOrder [Fintype T] {l : Label T} (h : InOrder s) (hserial : Serial s l)
    (hs : s.step cfg l = some s') : InOrder s' := by
  cases l with
  | setUp t fd offset whence =>
    simp only [Process.step] at hs
    split at hs
    · exact setUp_inOrder h hserial hs
    · cases hs
  | send t =>
    simp only [Process.step] at hs
    split at hs
    case h_1 path fd offset whence hp => exact send_inOrder h hp hs
    case h_2 => cases hs
  | reply t out woken => exact reply_inOrder h hs
  | look t =>
    simp only [Process.step] at hs
    split at hs
    case isTrue hp =>
      cases hs
      exact look_inOrder h hp
    case isFalse => cases hs
  | spurious t =>
    simp only [Process.step] at hs
    split at hs
    case isTrue hp =>
      cases hs
      exact spurious_inOrder h hp
    case isFalse => cases hs

omit [DecidableEq T] in
theorem InOrder.not_stranded (h : InOrder s) (t : T) : ¬Stranded s t := by
  intro hx
  obtain ⟨hp, ha, -⟩ := hx
  obtain ⟨hseek, -⟩ := h.seeking (t := t) (.inl (by simp [hp]))
  cases hseek with
  | setUp _ _ _ _ hp' => simp [hp] at hp'
  | awaiting _ _ hnone => simp [hnone] at ha
  | answered hp' => simp [hp] at hp'

/-- As long as no seek is set up inside another, each returns its own result and
none sleeps through its answer. -/
theorem serial_seeks_do_not_mix [Fintype T] (cfg : Config) (cl : Client) (s : Process T)
    (h : Reach (Process.step cfg) Serial (start T cl) s) :
    OwnResults s ∧ ∀ t, ¬Stranded s t := by
  have hin := h.invariant InOrder (start_inOrder T cl) fun _ _ _ hb hl hs ↦ step_inOrder hb hl hs
  exact ⟨hin.results, hin.not_stranded⟩

def openClient : Client :=
  { sampleClient with
    fdMap := (sampleClient.fdMap.insert 3 samplePath).insert 4 otherPath
    fdRedirMap := (sampleClient.fdRedirMap.insert 3 7).insert 4 8 }

/-- The second thread sets its seek up when the first has returned. -/
theorem serial_seeks_do_not_mix_twice :
    ∃ s : Process (Fin 2), s.trace = [(0, 2, some 2), (1, 5, some 5)] ∧ OwnResults s := by
  obtain ⟨s, hreach, htrace⟩ : ∃ s, Reach (Process.step sampleConfig) Serial
      (start (Fin 2) openClient) s ∧ s.trace = [(0, 2, some 2), (1, 5, some 5)] :=
    Reach.exists_of_exec
      [.setUp 0 3 2 0, .send 0, .look 0, .reply 0 2 (some 0), .look 0,
        .setUp 1 4 5 0, .send 1, .reply 1 5 none, .look 1]
      (by decide +kernel) (by decide +kernel)
  exact ⟨s, htrace, (serial_seeks_do_not_mix sampleConfig openClient s hreach).1⟩

/-- Two answers count `done` up to 2, which is not `HG_TRUE`: both threads sleep on. -/
theorem seeks_strand :
    ¬∀ s : Process (Fin 2),
      Reach (Process.step sampleConfig) (fun _ _ ↦ True) (start (Fin 2) openClient) s →
        OwnResults s ∧ ∀ t, ¬Stranded s t := by
  intro h
  obtain ⟨s, hreach, hplaces, hanswers⟩ : ∃ s, Reach (Process.step sampleConfig)
      (fun _ _ ↦ True) (start (Fin 2) openClient) s ∧
      (∀ t, s.places t = .asleep) ∧ s.answer 0 = some 2 :=
    Reach.exists_of_exec
      [.setUp 0 3 2 0, .setUp 1 4 5 0, .send 0, .send 1, .reply 0 2 none, .reply 1 5 none,
        .look 0, .look 1]
      (by decide +kernel) (by decide +kernel)
  exact (h s hreach).2 0 ⟨hplaces 0, by simp [hanswers], fun u ↦ by simp [hplaces u]⟩

end FTCache.ConcurrentSeeks
