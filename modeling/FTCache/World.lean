import FTCache.DataMover
import FTCache.Wrappers

namespace FTCache

open Posix

inductive Stage
  | request
  | push (bytes : Bytes)
  | reply (out : ℤ)
  deriving DecidableEq

/-- A request in flight, under the number of its Mercury handle. -/
structure Flight (C : Type) where
  client : C
  sent : Sent
  stage : Stage
  deriving DecidableEq

/-- History variables; no step reads them. `latestOpen` is the request of the
latest open of a number (none when no request was sent), `lastReply` the open
request whose reply was the last to arrive for a number, `served` what a server
answered to an open request, `trace` the calls that returned. -/
structure History (C : Type) where
  latestOpen : C → Fd → Option ℕ
  lastReply : C → Fd → Option ℕ
  served : ℕ → Option (Host × Path × Fd)
  trace : C → List (Call × Result)

/-- Any number of single-threaded clients, the servers, and the messages between them. -/
structure World (C : Type) where
  clients : C → Client
  servers : Host → Server
  net : PMap ℕ (Flight C)
  next : ℕ
  hist : History C

/-- One step of one party. `reply` runs the completion callback in the progress
thread of its client, `store` is the application writing its own memory. -/
inductive Label (C : Type)
  | call (c : C) (k : Call) (cell : Addr)
  | serve (id : ℕ) (env : Env)
  | push (id : ℕ)
  | reply (id : ℕ)
  | wake (c : C)
  | giveUp (c : C)
  | mover (h : Host) (m : MoverStep)
  | store (c : C) (a : Addr) (bytes : Bytes)

def Label.timesOut {C : Type} : Label C → Bool
  | .giveUp _ => true
  | _ => false

def Label.serving {C : Type} : Label C → Option (ℕ × Env)
  | .serve id env => some (id, env)
  | _ => none

def Label.calling {C : Type} : Label C → Option (C × Call)
  | .call c k _ => some (c, k)
  | _ => none

namespace World

variable {C : Type} [DecidableEq C] (cfg : Config) (w : World C)

def setClient (c : C) (cl : Client) : World C :=
  { w with clients := Function.update w.clients c cl }

def setServer (h : Host) (srv : Server) : World C :=
  { w with servers := Function.update w.servers h srv }

def setFlight (id : ℕ) (f : Flight C) : World C := { w with net := w.net.insert id f }

def dropFlight (id : ℕ) : World C := { w with net := w.net.erase id }

/-- A call returns to the application. -/
def returned (c : C) (k : Call) (r : Client × Result) : World C :=
  { w.setClient c r.1 with
    hist := { w.hist with
      trace := Function.update w.hist.trace c (w.hist.trace c ++ [(k, r.2)]) } }

/-- `HG_Forward` takes the next handle. -/
def post (c : C) (s : Sent) : World C :=
  { w.setFlight w.next ⟨c, s, .request⟩ with next := w.next + 1 }

def noteOpen (c : C) (k : Call) (id : Option ℕ) : World C :=
  match k with
  | .openFile _ _ fd => { w with hist := { w.hist with
      latestOpen := Function.update w.hist.latestOpen c
        (Function.update (w.hist.latestOpen c) fd id) } }
  | _ => w

/-- A call that forwarded nothing goes on at once; `close` does not wait for an
answer; the others block. -/
def proceed (c : C) (k : Call) (cell : Addr) (cl : Client) : Option Sent → World C
  | none => (w.noteOpen c k none).returned c k (cl.finishCall cfg k (-1))
  | some s =>
    let w' := (w.noteOpen c k (some w.next)).post c s
    match s.callback with
    | .none => w'.returned c k (cl.finishCall cfg k 0)
    | _ => w'.setClient c { cl with blocked := some ⟨k, w.next, s.host, cell⟩ }

def call (c : C) (k : Call) (cell : Addr) : Option (World C) :=
  if (w.clients c).blocked.isSome then none
  else ((w.clients c).startCall cfg k cell).map fun r ↦ w.proceed cfg c k cell r.1 r.2

def noteServed (id : ℕ) (s : Sent) (out : ℤ) : World C :=
  match s.request with
  | .openRpc _ => { w with hist := { w.hist with
      served := Function.update w.hist.served id (some (s.host, s.path, out)) } }
  | _ => w

def handled (id : ℕ) (f : Flight C) : Handled → World C
  | .aborted _ => w.setServer f.sent.host { w.servers f.sent.host with aborted := true }
  | .responded srv out =>
    ((w.setServer f.sent.host srv).setFlight id { f with stage := .reply out }).noteServed
      id f.sent out
  | .pushing srv bytes =>
    (w.setServer f.sent.host srv).setFlight id { f with stage := .push bytes }
  | .silent srv => (w.setServer f.sent.host srv).dropFlight id

def serve (id : ℕ) (env : Env) : Option (World C) :=
  (w.net id).bind fun f ↦
    if f.stage = .request ∧ (w.servers f.sent.host).aborted = false then
      some (w.handled id f ((w.servers f.sent.host).handle f.sent.request env))
    else none

/-- The bulk transfer writes to the registered buffer, then the server responds. -/
def push (id : ℕ) : Option (World C) :=
  (w.net id).bind fun f ↦
    match f.stage, f.sent.callback with
    | .push bytes, .readCb buf _ =>
      let cl := w.clients f.client
      some ((w.setClient f.client { cl with memory := cl.memory.store buf bytes }).setFlight id
        { f with stage := .reply (Server.ftcRpcHandlerBulkCb bytes) })
    | _, _ => none

def noteReply (id : ℕ) (c : C) : Callback → World C
  | .openCb fd _ => { w with hist := { w.hist with
      lastReply := Function.update w.hist.lastReply c
        (Function.update (w.hist.lastReply c) fd (some id)) } }
  | _ => w

def reply (id : ℕ) : Option (World C) :=
  (w.net id).bind fun f ↦
    match f.stage with
    | .reply out => (((w.clients f.client).complete out f.sent.callback).toOption).map fun cl ↦
        ((w.setClient f.client cl).dropFlight id).noteReply id f.client f.sent.callback
    | _ => none

def wake (c : C) : Option (World C) :=
  let cl := w.clients c
  cl.blocked.bind fun p ↦
    if cl.replied p then
      some (w.returned c p.call
        ({ cl with blocked := none }.finishCall cfg p.call (cl.remoteValue p)))
    else none

/-- `pthread_cond_timedwait` answers `ETIMEDOUT`. -/
def giveUp (c : C) : Option (World C) :=
  let cl := w.clients c
  cl.blocked.bind fun p ↦
    if Client.timed p.call then
      some (w.returned c p.call
        (({ cl with blocked := none }.timeOut p.host).finishCall cfg p.call (-1)))
    else none

def mover (h : Host) (m : MoverStep) : Option (World C) :=
  if (w.servers h).aborted then none
  else ((w.servers h).moverStep m).map fun srv ↦ w.setServer h srv

def store (c : C) (a : Addr) (bytes : Bytes) : Option (World C) :=
  let cl := w.clients c
  if cl.blocked.isSome then none
  else some (w.setClient c { cl with memory := cl.memory.store a bytes })

def step (w : World C) : Label C → Option (World C)
  | .call c k cell => w.call cfg c k cell
  | .serve id env => w.serve id env
  | .push id => w.push id
  | .reply id => w.reply id
  | .wake c => w.wake cfg c
  | .giveUp c => w.giveUp cfg c
  | .mover h m => w.mover h m
  | .store c a bytes => w.store c a bytes

/-- Every request that a step handles meets `P` at its server. -/
def Serving (P : Server → Env → Request → Prop) (w : World C) (l : Label C) : Prop :=
  ∀ x ∈ l.serving, ∀ f ∈ w.net x.1, P (w.servers f.sent.host) x.2 f.sent.request

instance (P : Server → Env → Request → Prop) [∀ srv env r, Decidable (P srv env r)] (w : World C)
    (l : Label C) : Decidable (Serving P w l) :=
  inferInstanceAs (Decidable (∀ x ∈ l.serving, ∀ f ∈ w.net x.1,
    P (w.servers f.sent.host) x.2 f.sent.request))

section Projections

variable {w}

@[simp] theorem noteOpen_clients (c : C) (k : Call) (id : Option ℕ) :
    (w.noteOpen c k id).clients = w.clients := by cases k <;> rfl
@[simp] theorem noteOpen_servers (c : C) (k : Call) (id : Option ℕ) :
    (w.noteOpen c k id).servers = w.servers := by cases k <;> rfl
@[simp] theorem noteOpen_net (c : C) (k : Call) (id : Option ℕ) :
    (w.noteOpen c k id).net = w.net := by cases k <;> rfl
@[simp] theorem noteOpen_next (c : C) (k : Call) (id : Option ℕ) :
    (w.noteOpen c k id).next = w.next := by cases k <;> rfl
@[simp] theorem noteOpen_trace (c : C) (k : Call) (id : Option ℕ) :
    (w.noteOpen c k id).hist.trace = w.hist.trace := by cases k <;> rfl
omit [DecidableEq C] in
@[simp] theorem noteServed_clients (id : ℕ) (s : Sent) (out : ℤ) :
    (w.noteServed id s out).clients = w.clients := by unfold noteServed; split <;> rfl
omit [DecidableEq C] in
@[simp] theorem noteServed_servers (id : ℕ) (s : Sent) (out : ℤ) :
    (w.noteServed id s out).servers = w.servers := by unfold noteServed; split <;> rfl
omit [DecidableEq C] in
@[simp] theorem noteServed_net (id : ℕ) (s : Sent) (out : ℤ) :
    (w.noteServed id s out).net = w.net := by unfold noteServed; split <;> rfl
omit [DecidableEq C] in
@[simp] theorem noteServed_next (id : ℕ) (s : Sent) (out : ℤ) :
    (w.noteServed id s out).next = w.next := by unfold noteServed; split <;> rfl
omit [DecidableEq C] in
@[simp] theorem noteServed_trace (id : ℕ) (s : Sent) (out : ℤ) :
    (w.noteServed id s out).hist.trace = w.hist.trace := by unfold noteServed; split <;> rfl
@[simp] theorem noteReply_clients (id : ℕ) (c : C) (cb : Callback) :
    (w.noteReply id c cb).clients = w.clients := by cases cb <;> rfl
@[simp] theorem noteReply_servers (id : ℕ) (c : C) (cb : Callback) :
    (w.noteReply id c cb).servers = w.servers := by cases cb <;> rfl
@[simp] theorem noteReply_net (id : ℕ) (c : C) (cb : Callback) :
    (w.noteReply id c cb).net = w.net := by cases cb <;> rfl
@[simp] theorem noteReply_next (id : ℕ) (c : C) (cb : Callback) :
    (w.noteReply id c cb).next = w.next := by cases cb <;> rfl
@[simp] theorem noteReply_trace (id : ℕ) (c : C) (cb : Callback) :
    (w.noteReply id c cb).hist.trace = w.hist.trace := by cases cb <;> rfl

end Projections

/-- What a step can do, with the guard of each case. -/
inductive Steps : Label C → World C → Prop
  | returnNow (c : C) (k : Call) (cell : Addr) (cl : Client)
      (hb : (w.clients c).blocked = none)
      (hs : Client.Started cfg (w.clients c) cell k cl none) :
      Steps (.call c k cell) ((w.noteOpen c k none).returned c k (cl.finishCall cfg k (-1)))
  | fire (c : C) (k : Call) (cell : Addr) (cl : Client) (s : Sent)
      (hb : (w.clients c).blocked = none)
      (hs : Client.Started cfg (w.clients c) cell k cl (some s)) (hcb : s.callback = .none) :
      Steps (.call c k cell)
        (((w.noteOpen c k (some w.next)).post c s).returned c k (cl.finishCall cfg k 0))
  | block (c : C) (k : Call) (cell : Addr) (cl : Client) (s : Sent)
      (hb : (w.clients c).blocked = none)
      (hs : Client.Started cfg (w.clients c) cell k cl (some s)) (hcb : s.callback ≠ .none) :
      Steps (.call c k cell) (((w.noteOpen c k (some w.next)).post c s).setClient c
        { cl with blocked := some ⟨k, w.next, s.host, cell⟩ })
  | serve (id : ℕ) (env : Env) (f : Flight C) (hf : w.net id = some f)
      (hst : f.stage = .request) (ha : (w.servers f.sent.host).aborted = false) :
      Steps (.serve id env)
        (w.handled id f ((w.servers f.sent.host).handle f.sent.request env))
  | push (id : ℕ) (f : Flight C) (bytes : Bytes) (buf cell : Addr) (hf : w.net id = some f)
      (hst : f.stage = .push bytes) (hcb : f.sent.callback = .readCb buf cell) :
      Steps (.push id) ((w.setClient f.client { w.clients f.client with
        memory := (w.clients f.client).memory.store buf bytes }).setFlight id
          { f with stage := .reply (Server.ftcRpcHandlerBulkCb bytes) })
  | reply (id : ℕ) (f : Flight C) (out : ℤ) (cl : Client) (hf : w.net id = some f)
      (hst : f.stage = .reply out)
      (hc : (w.clients f.client).complete out f.sent.callback = .ok cl) :
      Steps (.reply id)
        (((w.setClient f.client cl).dropFlight id).noteReply id f.client f.sent.callback)
  | wake (c : C) (p : Pending) (hb : (w.clients c).blocked = some p)
      (hr : (w.clients c).replied p = true) :
      Steps (.wake c) (w.returned c p.call
        ({ w.clients c with blocked := none }.finishCall cfg p.call ((w.clients c).remoteValue p)))
  | giveUp (c : C) (p : Pending) (hb : (w.clients c).blocked = some p)
      (ht : Client.timed p.call = true) :
      Steps (.giveUp c) (w.returned c p.call
        (({ w.clients c with blocked := none }.timeOut p.host).finishCall cfg p.call (-1)))
  | mover (h : Host) (m : MoverStep) (srv : Server) (ha : (w.servers h).aborted = false)
      (hm : Server.Moves (w.servers h) srv) :
      Steps (.mover h m) (w.setServer h srv)
  | store (c : C) (a : Addr) (bytes : Bytes) (hb : (w.clients c).blocked = none) :
      Steps (.store c a bytes)
        (w.setClient c { w.clients c with memory := (w.clients c).memory.store a bytes })

variable {cfg w}

theorem call_steps {c : C} {k : Call} {cell : Addr} {w' : World C}
    (h : w.call cfg c k cell = some w') : Steps cfg w (.call c k cell) w' := by
  unfold call at h
  split at h
  case isTrue => cases h
  case isFalse hb =>
    have hb : (w.clients c).blocked = none := by simpa using hb
    obtain ⟨⟨cl, s⟩, hs, rfl⟩ := Option.map_eq_some_iff.mp h
    have hs := Client.startCall_started hs
    cases s with
    | none => exact .returnNow c k cell cl hb hs
    | some s =>
      by_cases hcb : s.callback = .none
      · have hw := Steps.fire c k cell cl s hb hs hcb
        simpa only [proceed, hcb] using hw
      · have hw := Steps.block c k cell cl s hb hs hcb
        cases hc : s.callback <;> simp_all [proceed]

theorem step_steps {l : Label C} {w' : World C} (h : step cfg w l = some w') :
    Steps cfg w l w' := by
  cases l with
  | call c k cell => exact call_steps h
  | serve id env =>
    obtain ⟨f, hf, h⟩ := Option.bind_eq_some_iff.mp h
    split at h
    case isTrue hg =>
      cases h
      exact .serve id env f hf hg.1 hg.2
    case isFalse => cases h
  | push id =>
    obtain ⟨f, hf, h⟩ := Option.bind_eq_some_iff.mp h
    split at h
    case h_1 bytes buf cell hst hcb =>
      cases h
      exact .push id f bytes buf cell hf hst hcb
    case h_2 => cases h
  | reply id =>
    obtain ⟨f, hf, h⟩ := Option.bind_eq_some_iff.mp h
    split at h
    case h_1 out hst =>
      obtain ⟨cl, hc, rfl⟩ := Option.map_eq_some_iff.mp h
      cases he : (w.clients f.client).complete out f.sent.callback with
      | error e =>
        rw [he] at hc
        cases hc
      | ok cl' =>
        rw [he] at hc
        cases hc
        exact .reply id f out _ hf hst he
    case h_2 => cases h
  | wake c =>
    obtain ⟨p, hb, h⟩ := Option.bind_eq_some_iff.mp h
    split at h
    case isTrue hr =>
      cases h
      exact .wake c p hb hr
    case isFalse => cases h
  | giveUp c =>
    obtain ⟨p, hb, h⟩ := Option.bind_eq_some_iff.mp h
    split at h
    case isTrue ht =>
      cases h
      exact .giveUp c p hb ht
    case isFalse => cases h
  | mover h' m =>
    simp only [step, mover] at h
    split at h
    case isTrue => cases h
    case isFalse ha =>
      obtain ⟨srv, hm, rfl⟩ := Option.map_eq_some_iff.mp h
      exact .mover h' m srv (by simpa using ha) (Server.moverStep_moves hm)
  | store c a bytes =>
    simp only [step, store] at h
    split at h
    case isTrue => cases h
    case isFalse hb =>
      cases h
      exact .store c a bytes (by simpa using hb)

end World

/-- A job: its configuration and the descriptors each server holds for itself. -/
structure Job where
  cfg : Config
  own : Host → Table Path
  own_nonneg : ∀ h s, (own h s).isSome → 0 ≤ s

def sampleJob : Job := ⟨sampleConfig, fun _ _ ↦ none, by simp⟩

/-- Before the first call: nothing is tracked, cached or in flight. -/
def Job.start (job : Job) (C : Type) : World C where
  clients := fun _ ↦
    { fdMap := fun _ ↦ none
      fdRedirMap := fun _ ↦ none
      timeoutCounters := fun _ ↦ 0
      addressCache := fun _ ↦ none
      kernel := fun _ ↦ none
      memory := fun _ ↦ 0
      cells := fun _ ↦ {}
      seekDone := 0
      readRet := -1
      blocked := none }
  servers := fun h ↦ Server.start job.cfg.files (job.own h)
  net := fun _ ↦ none
  next := 0
  hist :=
    { latestOpen := fun _ _ ↦ none
      lastReply := fun _ _ ↦ none
      served := fun _ ↦ none
      trace := fun _ ↦ [] }

/-- A client of the sample job before its first call. -/
def sampleClient : Client := (sampleJob.start Unit).clients ()

end FTCache
