import FTCache.Flights
import FTCache.Handlers

namespace FTCache.StackFrames

open Runs Words Memory World Client Server Flights

/-- The frame of a call that waits with a time limit: where the compiler puts the variables
that are handed to the callback, what `cond` and `mutex` hold during the wait, and what
signalling, locking and unlocking leave in them. -/
structure Frame where
  size : ℕ
  bytesRead : ℕ
  done : ℕ
  cond : ℕ
  mutex : ℕ
  condBytes : Bytes
  mutexBytes : Bytes
  signalled : Bytes → Bytes
  unlocked : Bytes → Bytes

/-- `bytes_read` has eight bytes, an `hg_bool_t` has one. -/
def Frame.variables (y : Frame) : List (ℕ × ℕ) :=
  [(y.bytesRead, 8), (y.done, 1), (y.cond, y.condBytes.length), (y.mutex, y.mutexBytes.length)]

/-- A frame has its variables side by side. -/
structure Layout extends Frame where
  fits : ∀ x ∈ toFrame.variables, x.1 + x.2 ≤ size
  apart : toFrame.variables.Pairwise fun x x' ↦ x.1 + x.2 ≤ x'.1 ∨ x'.1 + x'.2 ≤ x.1

/-- An address of a region. -/
def Within (a n x : ℕ) : Prop := a ≤ x ∧ x < a + n

instance (a n x : ℕ) : Decidable (Within a n x) := inferInstanceAs (Decidable (_ ∧ _))

/-- The calls that wait with a time limit for an answer. -/
def framed : Call → Bool
  | .openFile _ _ _ => true
  | .read _ _ _ => true
  | .pread _ _ _ _ => true
  | .lseek _ _ _ => false
  | .close _ => false

namespace Layout

variable (y : Layout)

/-- `done` and `bytes_read` as the memory has them. -/
def view (m : Memory UInt8) (cell : Addr) : Cell :=
  ⟨m (cell + y.done) = 1, int64 (m.load (cell + y.bytesRead) 8)⟩

/-- Contents of `done`, `cond` and `mutex`, with their addresses. -/
def contents (cell : Addr) (done : UInt8) (cond mutex : Bytes) : List (Addr × Bytes) :=
  [(cell + y.done, [done]), (cell + y.cond, cond), (cell + y.mutex, mutex)]

def waiting (cell : Addr) : List (Addr × Bytes) := y.contents cell 0 y.condBytes y.mutexBytes

/-- What a call has put into its frame when it waits; an open has no `bytes_read`. -/
def setUp (cell : Addr) : Call → List (Addr × Bytes)
  | .openFile _ _ _ => y.waiting cell
  | .read _ _ _ => (cell + y.bytesRead, bytes64 (-1)) :: y.waiting cell
  | .pread _ _ _ _ => (cell + y.bytesRead, bytes64 (-1)) :: y.waiting cell
  | .lseek _ _ _ => []
  | .close _ => []

/-- The last lines of `ftc_open_cb` and `ftc_read_cb`. -/
def signal (m : Memory UInt8) (cell : Addr) : List (Addr × Bytes) :=
  y.contents cell 1
    ((y.signalled (m.load (cell + y.cond) y.condBytes.length)).take y.condBytes.length)
    ((y.unlocked (m.load (cell + y.mutex) y.mutexBytes.length)).take y.mutexBytes.length)

/-- What a callback writes through the pointers it was given, wherever they point by now. -/
def answer (m : Memory UInt8) (out : ℤ) : Callback → List (Addr × Bytes)
  | .openCb _ cell => y.signal m cell
  | .readCb _ cell => (cell + y.bytesRead, bytes64 out) :: y.signal m cell
  | .seekCb => []
  | .none => []

end Layout

/-- The clients with their stack frames in their memory. `inUse` is a history variable: the
addresses at which the application has something. -/
structure Spaces (C : Type) where
  world : World C
  inUse : C → Addr → Bool

/-- A step of a party, or the application gives some of its memory up. -/
inductive Move (C : Type)
  | run (l : Label C)
  | release (c : C) (a : Addr) (n : ℕ)

def Move.label {C : Type} : Move C → Option (Label C)
  | .run l => some l
  | .release _ _ _ => none

section Machine

variable {C : Type} [DecidableEq C] (y : Layout)

/-- What a step of the system writes to the stack frames of client `c`, dead or alive. -/
def writes (w w' : World C) (l : Label C) (c : C) : List (Addr × Bytes) :=
  match l with
  | .call c' k cell => if c' = c ∧ (w'.clients c).blocked.isSome then y.setUp cell k else []
  | .reply id =>
    match w.net id with
    | some ⟨c', s, .reply out⟩ =>
      if c' = c then y.answer (w.clients c).memory out s.callback else []
    | _ => []
  | _ => []

/-- The writes go to the memory, and the cells are what the memory then has. -/
def settleClient (xs : List (Addr × Bytes)) (cl : Client) : Client :=
  { cl with memory := cl.memory.stores xs, cells := y.view (cl.memory.stores xs) }

def settle (w w' : World C) (l : Label C) : World C :=
  { w' with clients := fun c ↦ settleClient y (writes y w w' l c) (w'.clients c) }

namespace Spaces

variable (s : Spaces C)

/-- A stack frame lies where the application has nothing, nor the buffer of the call. -/
def Clear : Label C → Prop
  | .call c k cell => framed k = true → ∀ i < y.size, s.inUse c (cell + i) = false ∧
      ∀ x ∈ k.transfer, ¬Within x.2.1 x.2.2.1 (cell + i)
  | _ => True

instance : (l : Label C) → Decidable (s.Clear y l)
  | .call c k cell => inferInstanceAs (Decidable (framed k = true → ∀ i < y.size,
      s.inUse c (cell + i) = false ∧ ∀ x ∈ k.transfer, ¬Within x.2.1 x.2.2.1 (cell + i)))
  | .serve _ _ => isTrue trivial
  | .push _ => isTrue trivial
  | .reply _ => isTrue trivial
  | .wake _ => isTrue trivial
  | .giveUp _ => isTrue trivial
  | .mover _ _ => isTrue trivial
  | .store _ _ _ => isTrue trivial

/-- The application has its buffers, and what it stores. -/
def uses : Label C → C → Addr → Bool
  | .call c k _ => Function.update s.inUse c fun x ↦
      s.inUse c x || k.transfer.any fun t ↦ Within t.2.1 t.2.2.1 x
  | .store c a bytes => Function.update s.inUse c fun x ↦
      s.inUse c x || Within a bytes.length x
  | _ => s.inUse

def step (cfg : Config) (s : Spaces C) : Move C → Option (Spaces C)
  | .run l =>
    if s.Clear y l then
      (World.step cfg s.world l).map fun w ↦ ⟨settle y s.world w l, s.uses l⟩
    else none
  | .release c a n =>
    if (s.world.clients c).blocked.isSome then none
    else some { s with
      inUse := Function.update s.inUse c fun x ↦ s.inUse c x && !Within a n x }

end Spaces

end Machine

/-- Before the first call, with nothing in memory. -/
def start (y : Layout) (job : Job) (C : Type) : Spaces C where
  world := { job.start C with clients := fun c ↦ settleClient y [] ((job.start C).clients c) }
  inUse := fun _ _ ↦ false

namespace Layout

variable {y : Layout} {m m' : Memory UInt8} {cell : ℕ}

theorem view_congr (h : ∀ i < y.size, m (cell + i) = m' (cell + i)) :
    y.view m cell = y.view m' cell := by
  have hbytes : y.bytesRead + 8 ≤ y.size := y.fits (y.bytesRead, 8) (by simp [Frame.variables])
  have hdone : y.done + 1 ≤ y.size := y.fits (y.done, 1) (by simp [Frame.variables])
  have hload : m.load (cell + y.bytesRead) 8 = m'.load (cell + y.bytesRead) 8 :=
    load_congr fun i hi ↦ by simpa [Nat.add_assoc] using h (y.bytesRead + i) (by omega)
  rw [view, view, hload, h y.done (by omega)]

/-- The stores stay within a frame, and do not overlap. -/
structure InFrame (y : Layout) (cell : ℕ) (xs : List (ℕ × List UInt8)) : Prop where
  fits : ∀ x ∈ xs, cell ≤ x.1 ∧ x.1 + x.2.length ≤ cell + y.size
  apart : xs.Pairwise Apart

theorem InFrame.tail {x : ℕ × List UInt8} {xs : List (ℕ × List UInt8)}
    (h : y.InFrame cell (x :: xs)) : y.InFrame cell xs :=
  ⟨fun z hz ↦ h.fits z (List.mem_cons_of_mem x hz), (List.pairwise_cons.mp h.apart).2⟩

theorem contents_inFrame (y : Layout) (cell : ℕ) (out : ℤ) (done : UInt8) {cond mutex : Bytes}
    (hc : cond.length ≤ y.condBytes.length) (hm : mutex.length ≤ y.mutexBytes.length) :
    y.InFrame cell ((cell + y.bytesRead, bytes64 out) :: y.contents cell done cond mutex) := by
  have hapart := y.apart
  have hfits := y.fits
  simp only [Frame.variables, List.pairwise_cons, List.forall_mem_cons, List.not_mem_nil,
    false_implies, implies_true, and_true] at hapart hfits
  constructor
  · simp only [contents, List.forall_mem_cons, List.not_mem_nil, false_implies, implies_true,
      and_true, bytes64_length, List.length_cons, List.length_nil]
    omega
  · simp only [contents, List.pairwise_cons, List.forall_mem_cons, List.not_mem_nil, false_implies,
      implies_true, and_true, Apart, bytes64_length, List.length_cons, List.length_nil,
      List.Pairwise.nil]
    omega

theorem setUp_inFrame (y : Layout) (cell : Addr) (k : Call) :
    y.InFrame cell (y.setUp cell k) := by
  have hall := contents_inFrame y cell (-1) 0 (Nat.le_refl y.condBytes.length)
    (Nat.le_refl y.mutexBytes.length)
  cases k with
  | openFile path flags fd => exact hall.tail
  | read fd buf count => exact hall
  | pread fd buf count offset => exact hall
  | lseek fd offset whence => exact ⟨by simp [setUp], .nil⟩
  | close fd => exact ⟨by simp [setUp], .nil⟩

theorem readAnswer_inFrame (y : Layout) (m : Memory UInt8) (out : ℤ) (buf cell : Addr) :
    y.InFrame cell (y.answer m out (.readCb buf cell)) :=
  contents_inFrame y cell out 1 (List.length_take_le ..) (List.length_take_le ..)

theorem openAnswer_inFrame (y : Layout) (m : Memory UInt8) (out fd : ℤ) (cell : Addr) :
    y.InFrame cell (y.answer m out (.openCb fd cell)) :=
  (readAnswer_inFrame y m out 0 cell).tail

theorem answer_apart (y : Layout) (m : Memory UInt8) (out : ℤ) (cb : Callback) :
    (y.answer m out cb).Pairwise Apart := by
  cases cb with
  | openCb fd cell => exact (openAnswer_inFrame y m out fd cell).apart
  | readCb buf cell => exact (readAnswer_inFrame y m out buf cell).apart
  | seekCb => exact .nil
  | none => exact .nil

theorem InFrame.outside {xs : List (ℕ × List UInt8)} (h : y.InFrame cell xs) {a : ℕ}
    (ha : ¬Within cell y.size a) : m.stores xs a = m a := by
  refine stores_outside fun x hx ↦ ?_
  have hx := h.fits x hx
  unfold Within at ha
  omega

theorem InFrame.done_eq {xs : List (ℕ × List UInt8)} (h : y.InFrame cell xs) {b : UInt8}
    (hb : (cell + y.done, [b]) ∈ xs) : (y.view (m.stores xs) cell).done = decide (b = 1) := by
  have hbyte : m.stores xs (cell + y.done) = b := by
    simpa using stores_inside (m := m) h.apart hb (i := 0) (by simp)
  simp [view, hbyte]

theorem InFrame.bytesRead_eq {xs : List (ℕ × List UInt8)} (h : y.InFrame cell xs) {out : ℤ}
    (hb : (cell + y.bytesRead, bytes64 out) ∈ xs) (hlow : -2 ^ 63 ≤ out) (hhigh : out < 2 ^ 63) :
    (y.view (m.stores xs) cell).bytesRead = out := by
  have hload := load_stores (m := m) h.apart hb
  rw [bytes64_length] at hload
  rw [view, hload, int64_bytes64 hlow hhigh]

theorem cell_ext {v : Cell} {done : Bool} {out : ℤ} (hd : v.done = done) (hb : v.bytesRead = out) :
    v = ⟨done, out⟩ := by
  cases v
  simp_all

theorem view_readAnswer (m m' : Memory UInt8) (buf cell : Addr) (out : ℤ) (hlow : -2 ^ 63 ≤ out)
    (hhigh : out < 2 ^ 63) :
    y.view (m.stores (y.answer m' out (.readCb buf cell))) cell = ⟨true, out⟩ := by
  have hin := readAnswer_inFrame y m' out buf cell
  have hdone := hin.done_eq (m := m) (b := 1) (by simp [answer, signal, contents])
  have hbytes : (cell + y.bytesRead, bytes64 out) ∈ y.answer m' out (.readCb buf cell) := by
    simp [answer]
  have hread := hin.bytesRead_eq (m := m) hbytes hlow hhigh
  exact cell_ext (by simpa using hdone) hread

theorem view_setUp (m : Memory UInt8) (cell : Addr) {k : Call} (hk : framed k = true) :
    (y.view (m.stores (y.setUp cell k)) cell).done = false ∧
      (k.transfer.isSome → y.view (m.stores (y.setUp cell k)) cell = {}) := by
  have hin := setUp_inFrame y cell k
  have hdone : (cell + y.done, [0]) ∈ y.setUp cell k := by
    cases k <;> simp_all [framed, setUp, waiting, contents]
  have hfalse := hin.done_eq (m := m) hdone
  refine ⟨by simpa using hfalse, fun ht ↦ ?_⟩
  have hbytes : (cell + y.bytesRead, bytes64 (-1)) ∈ y.setUp cell k := by
    cases k <;> simp_all [Call.transfer, setUp]
  have hread := hin.bytesRead_eq (m := m) hbytes (by omega) (by omega)
  exact cell_ext (by simpa using hfalse) hread

end Layout

section Machine

variable {C : Type} {y : Layout} {cfg : Config} {w w' : World C} {l : Label C} {c : C}

/-- A reply to a read is an `int`, and what is pushed fits the buffer. -/
structure RepliesOk (net : PMap ℕ (Flight C)) : Prop where
  int : ∀ id f, net id = some f → ∀ buf cell, f.sent.callback = .readCb buf cell →
    ∀ out, f.stage = .reply out → -2 ^ 31 ≤ out ∧ out < 2 ^ 31
  fits : ∀ id f, net id = some f → ∀ inp, f.sent.request = .baseRpc inp →
    ∀ bytes, f.stage = .push bytes → bytes.length ≤ inp.bulkSize

theorem RepliesOk.insert {net : PMap ℕ (Flight C)} (h : RepliesOk net) {id : ℕ} {g : Flight C}
    (hint : ∀ buf cell, g.sent.callback = .readCb buf cell → ∀ out, g.stage = .reply out →
      -2 ^ 31 ≤ out ∧ out < 2 ^ 31)
    (hfits : ∀ inp, g.sent.request = .baseRpc inp → ∀ bytes, g.stage = .push bytes →
      bytes.length ≤ inp.bulkSize) : RepliesOk (net.insert id g) := by
  constructor
  · intro j f hf
    by_cases hj : j = id
    · obtain rfl : g = f := by simpa [hj] using hf
      exact hint
    · exact h.int j f (by simpa [hj] using hf)
  · intro j f hf
    by_cases hj : j = id
    · obtain rfl : g = f := by simpa [hj] using hf
      exact hfits
    · exact h.fits j f (by simpa [hj] using hf)

theorem RepliesOk.erase {net : PMap ℕ (Flight C)} (h : RepliesOk net) (id : ℕ) :
    RepliesOk (net.erase id) := by
  have hold {j : ℕ} {f : Flight C} (hf : net.erase id j = some f) : net j = some f := by
    by_cases hj : j = id
    · simp [hj] at hf
    · simpa [hj] using hf
  exact ⟨fun j f hf ↦ h.int j f (hold hf), fun j f hf ↦ h.fits j f (hold hf)⟩

theorem RepliesOk.taken {id : ℕ} {f : Flight C} {srv : Server} {env : Env}
    (h : RepliesOk w.net) (hk : Kind cfg f.sent)
    (ht : Taken w id f (srv.handle f.sent.request env) w') : RepliesOk w'.net := by
  generalize hr : srv.handle f.sent.request env = r at ht
  cases ht with
  | aborted a => exact h
  | responded srv' out hcb =>
    suffices RepliesOk (w.net.insert id { f with stage := .reply out }) by
      simpa [setServer, setFlight] using this
    refine h.insert (fun buf cell hread out' ho ↦ ?_) fun inp _ bytes hb ↦ by cases hb
    cases ho
    obtain ⟨inp, hreq⟩ := hk.read_request hread
    rw [hreq] at hr
    obtain rfl := ftcRpcHandler_refuses hr
    omega
  | pushing srv' bytes hcb =>
    refine h.insert (fun buf cell _ out' ho ↦ by cases ho) fun inp hreq bytes' hb ↦ ?_
    cases hb
    rw [hreq] at hr
    exact ftcRpcHandler_fits hr
  | silent srv' hcb => exact h.erase id

variable [DecidableEq C]

theorem steps_replies (hnet : NetOk cfg w.net w.next) (h : RepliesOk w.net)
    (hs : Steps cfg w l w') : RepliesOk w'.net := by
  have hpost {c : C} {s : Sent} : RepliesOk (w.net.insert w.next ⟨c, s, .request⟩) :=
    h.insert (fun _ _ _ _ ho ↦ by cases ho) fun _ _ _ hb ↦ by cases hb
  cases hs with
  | returnNow c k cell cl hb hs => simpa [returned, setClient] using h
  | fire c k cell cl s hb hs hcb => simpa [returned, setClient, post, setFlight] using hpost
  | block c k cell cl s hb hs hcb => simpa [setClient, post, setFlight] using hpost
  | serve id env f hf hst ha =>
    exact h.taken (hnet.kind id f hf) (handled_taken w id (hnet.kind id f hf) _ env)
  | push id f bytes buf cell hf hst hcb =>
    refine h.insert (fun _ _ _ out ho ↦ ?_) fun _ _ _ hb ↦ by cases hb
    cases ho
    exact ⟨int32_lower _, int32_upper _⟩
  | reply id f out cl hf hst hc => simpa [setClient, dropFlight] using h.erase id
  | wake c p hb hr => exact h
  | giveUp c p hb ht => exact h
  | mover h' m srv ha hm => exact h
  | store c a bytes hb => exact h

omit [DecidableEq C] in
theorem framed_of_transfer {k : Call} (hk : k.transfer.isSome) : framed k = true := by
  cases k <;> simp_all [Call.transfer, framed]

/-- The request of a call in progress brings its answer to the buffer and the frame of the call. -/
inductive Asked (p : Pending) : Sent → Prop
  | transfer (host : Host) (path : Path) (inp : RpcIn) (fd : Fd) (buf : Addr) (count : ℕ)
      (offset : ℤ) (hk : p.call.transfer = some (fd, buf, count, offset))
      (hsize : inp.bulkSize ≤ count) : Asked p ⟨host, path, .baseRpc inp, .readCb buf p.cell⟩
  | other (s : Sent) (hk : p.call.transfer = none)
      (hcb : ∀ buf cell, s.callback ≠ .readCb buf cell) : Asked p s

omit [DecidableEq C] in
theorem started_asked {cl cl' : Client} {k : Call} {cell : Addr} {s : Sent}
    (h : Started cfg cl cell k cl' (some s)) (id : ℕ) : Asked ⟨k, id, s.host, cell⟩ s := by
  cases h with
  | openSent => exact .other _ rfl (by simp)
  | transferSent k p fd buf count offset cache hk hp ho =>
    refine .transfer (cfg.host p) p _ fd buf count offset hk ?_
    simp only [transferIn]
    unfold size64
    omega
  | lseekSent => exact .other _ rfl (by simp)
  | closeSent => exact .other _ rfl (by simp)

/-- A call in progress, with its frame apart from its buffer. -/
structure InProgress (y : Layout) (w : World C) (c : C) (p : Pending) : Prop where
  issued : p.request < w.next
  asked : ∀ f, w.net p.request = some f → f.client = c ∧ Asked p f.sent
  clear : ∀ x ∈ p.call.transfer, ∀ a, Within p.cell y.size a → ¬Within x.2.1 x.2.2.1 a

/-- What holds of the clients with their stack frames in every state. -/
structure Consistent (y : Layout) (cfg : Config) (w : World C) : Prop where
  net : NetOk cfg w.net w.next
  replies : RepliesOk w.net
  view : ∀ c, (w.clients c).cells = y.view (w.clients c).memory
  calls : ∀ c, ∀ p ∈ (w.clients c).blocked, InProgress y w c p

theorem steps_inProgress {s : Spaces C} (h : Consistent y cfg s.world) (hl : s.Clear y l)
    (hs : Steps cfg s.world l w') {p : Pending} (hp : p ∈ (w'.clients c).blocked) :
    InProgress y w' c p := by
  have hkept (hp : p ∈ (s.world.clients c).blocked) : InProgress y w' c p := by
    obtain ⟨hissued, hasked, hclear⟩ := h.calls c p hp
    refine ⟨hissued.trans_le (steps_next hs), fun f hf ↦ ?_, hclear⟩
    rcases steps_flight hs hf with ⟨g, hg, hclient, hsent⟩ | ⟨hid, -⟩
    · rw [hclient, hsent]
      exact hasked g hg
    · omega
  cases steps_pends hs hp with
  | blocks k cell cl sent w' he hstart hcb hnext hnet hcl =>
    subst he
    refine ⟨by simp [hnext], fun f hf ↦ ?_, fun x hx a ha ↦ ?_⟩
    · obtain rfl := Option.some.inj (hnet.symm.trans hf)
      exact ⟨rfl, started_asked hstart _⟩
    · obtain ⟨i, rfl⟩ := Nat.exists_eq_add_of_le ha.1
      have hi : i < y.size := by
        have hlt := ha.2
        simp only at hlt
        omega
      exact (hl (framed_of_transfer (Option.isSome_iff_exists.mpr ⟨x, hx⟩)) i hi).2 x hx
  | aside l w' hl' hserve hold hnext hnet hcl => exact hkept hold
  | served env f hold hf hst => exact hkept hold
  | pushed id f bytes buf cell hold hf hst hcb => exact hkept hold
  | replied id f out cl hold hf hst hc => exact hkept hold

theorem settle_consistent {s : Spaces C} (h : Consistent y cfg s.world) (hl : s.Clear y l)
    (hs : Steps cfg s.world l w') : Consistent y cfg (settle y s.world w' l) where
  net := (steps_net h.net hs : NetOk cfg w'.net w'.next)
  replies := (steps_replies h.net h.replies hs : RepliesOk w'.net)
  view _ := rfl
  calls _ _ hp := by
    obtain ⟨hissued, hasked, hclear⟩ := steps_inProgress h hl hs hp
    exact ⟨hissued, hasked, hclear⟩

/-- A move is a step of the system, whose writes go to the memory, or leaves the system as it is. -/
theorem step_cases {s s' : Spaces C} {m : Move C} (h : s.step y cfg m = some s') :
    (∃ l w, m = .run l ∧ s.Clear y l ∧ World.step cfg s.world l = some w ∧
      s' = ⟨settle y s.world w l, s.uses l⟩) ∨ m.label = none ∧ s'.world = s.world := by
  cases m with
  | run l =>
    simp only [Spaces.step] at h
    split at h
    case isTrue hl =>
      obtain ⟨w, hw, rfl⟩ := Option.map_eq_some_iff.mp h
      exact .inl ⟨l, w, rfl, hl, hw, rfl⟩
    case isFalse => cases h
  | release c a n =>
    simp only [Spaces.step] at h
    split at h
    case isTrue => cases h
    case isFalse =>
      cases h
      exact .inr ⟨rfl, rfl⟩

theorem step_consistent {s s' : Spaces C} {m : Move C} (h : Consistent y cfg s.world)
    (hs : s.step y cfg m = some s') : Consistent y cfg s'.world := by
  rcases step_cases hs with ⟨l, w, -, hl, hw, rfl⟩ | ⟨-, he⟩
  · exact settle_consistent h hl (step_steps hw)
  · rwa [he]

omit [DecidableEq C] in
theorem start_consistent (y : Layout) (job : Job) (C : Type) :
    Consistent y job.cfg (start y job C).world := by
  refine ⟨start_net job C, ⟨?_, ?_⟩, fun _ ↦ rfl, ?_⟩
  · simp [start, Job.start]
  · simp [start, Job.start]
  · simp [start, settleClient, Job.start]

theorem reach_consistent {job : Job} {ok : Spaces C → Move C → Prop} {s : Spaces C}
    (h : Reach (Spaces.step y job.cfg) ok (start y job C) s) : Consistent y job.cfg s.world :=
  h.invariant (fun s ↦ Consistent y job.cfg s.world) (start_consistent y job C)
    fun _ _ _ hi _ hs ↦ step_consistent hi hs

def delivers : Label C → Option ℕ
  | .push id => some id
  | .reply id => some id
  | _ => none

/-- What the delivery of a message writes to the memory of its client. -/
def stored (y : Layout) (m : Memory UInt8) (f : Flight C) : Label C → List (Addr × Bytes)
  | .push _ =>
    match f.stage, f.sent.callback with
    | .push bytes, .readCb buf _ => [(buf, bytes)]
    | _, _ => []
  | .reply _ =>
    match f.stage with
    | .reply out => y.answer m out f.sent.callback
    | _ => []
  | _ => []

omit [DecidableEq C] in
theorem stored_apart (y : Layout) (m : Memory UInt8) (f : Flight C) (l : Label C) :
    (stored y m f l).Pairwise Apart := by
  unfold stored
  split
  · split
    · exact List.pairwise_singleton _ _
    · exact .nil
  · split
    · exact y.answer_apart _ _ _
    · exact .nil
  · exact .nil

omit [DecidableEq C] in
/-- A seek and a close have nothing in memory that waits for an answer. -/
theorem stored_silent (y : Layout) (m : Memory UInt8) {f : Flight C}
    (hcb : f.sent.callback = .none ∨ f.sent.callback = .seekCb) (l : Label C) :
    stored y m f l = [] := by
  unfold stored
  split
  · split
    case h_1 bytes buf cell hst hread => simp [hread] at hcb
    case h_2 => rfl
  · split
    · rcases hcb with hcb | hcb
      · rw [hcb]
        rfl
      · rw [hcb]
        rfl
    · rfl
  · rfl

theorem writes_aside (hl : (∀ id, l ≠ .reply id) ∧ ∀ k cell, l ≠ .call c k cell) :
    writes y w w' l c = [] := by
  unfold writes
  split
  case h_1 c' k cell =>
    rw [if_neg]
    rintro ⟨rfl, -⟩
    exact hl.2 k cell rfl
  case h_2 id => exact absurd rfl (hl.1 id)
  case h_3 => rfl

theorem delivered_memory {id : ℕ} {f : Flight C} (hl : delivers l = some id)
    (hf : w.net id = some f) (hs : Steps cfg w l w') :
    ((settle y w w' l).clients f.client).memory =
      (w.clients f.client).memory.stores (stored y (w.clients f.client).memory f l) := by
  cases hs with
  | push j g bytes buf cell hg hst hcb =>
    cases hl
    obtain rfl : g = f := Option.some.inj (hg.symm.trans hf)
    simp [settle, settleClient, writes, stored, hst, hcb, setClient, setFlight, stores]
  | reply j g out cl hg hst hc =>
    cases hl
    obtain rfl : g = f := Option.some.inj (hg.symm.trans hf)
    obtain ⟨client, sent, stage⟩ := g
    simp only at hst hc
    subst hst
    simp [settle, settleClient, writes, stored, hg, setClient, dropFlight, complete_memory hc]
  | returnNow => cases hl
  | fire => cases hl
  | block => cases hl
  | serve => cases hl
  | wake => cases hl
  | giveUp => cases hl
  | mover => cases hl
  | store => cases hl

omit [DecidableEq C] in
/-- The bytes a call waits for stay out of its frame. -/
theorem ownPush_frame (h : Consistent y cfg w) {p : Pending} {f : Flight C} {bytes : Bytes}
    {buf cell : Addr} (hp : p ∈ (w.clients c).blocked) (hf : w.net p.request = some f)
    (hst : f.stage = .push bytes) (hcb : f.sent.callback = .readCb buf cell) (m : Memory UInt8)
    {a : ℕ} (ha : Within p.cell y.size a) : m.store buf bytes a = m a := by
  obtain ⟨-, hasked, hclear⟩ := h.calls c p hp
  have hfits := h.replies.fits p.request f hf
  obtain ⟨-, hask⟩ := hasked f hf
  generalize f.sent = sent at hask hcb hfits
  cases hask with
  | transfer host path inp fd buf' count offset hk hsize =>
    cases hcb
    have hlen := hfits inp rfl bytes hst
    have hout := hclear (fd, buf, count, offset) hk a ha
    unfold Within at hout
    simp only at hout
    exact store_outside m (by omega)
  | other sent hk hno => exact absurd hcb (hno buf cell)

end Machine

/-- The variables in the order of their declarations, as `pthread_cond_t` and
`pthread_mutex_t` have 48 and 40 bytes; both are left as they were. -/
def sampleLayout : Layout where
  size := 104
  bytesRead := 0
  done := 8
  cond := 16
  mutex := 64
  condBytes := List.replicate 48 0
  mutexBytes := List.replicate 40 0
  signalled := id
  unlocked := id
  fits := by decide
  apart := by decide

end FTCache.StackFrames
