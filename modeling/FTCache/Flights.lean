import FTCache.World

namespace FTCache.Flights

open Runs World Client

variable {C : Type} {cfg : Config}

/-- What a client can forward. -/
inductive Kind (cfg : Config) : Sent → Prop
  | opening (path : Path) (fd : Fd) (cell : Addr) (hp : (cfg.files path).isSome) :
      Kind cfg ⟨cfg.host path, path, .openRpc ⟨path, fd⟩, .openCb fd cell⟩
  | transfer (path : Path) (accessfd fd : Fd) (buf : Addr) (count : ℕ) (offset : ℤ) (cell : Addr) :
      Kind cfg ⟨cfg.host path, path, .baseRpc (transferIn accessfd fd count offset),
        .readCb buf cell⟩
  | seeking (path : Path) (inp : SeekIn) :
      Kind cfg ⟨cfg.host path, path, .seekRpc inp, .seekCb⟩
  | closing (path : Path) (inp : CloseIn) :
      Kind cfg ⟨cfg.host path, path, .closeRpc inp, .none⟩

theorem started_kind {cl cl' : Client} {k : Call} {cell : Addr} {s : Sent}
    (h : Started cfg cl cell k cl' (some s)) : Kind cfg s := by
  cases h with
  | openSent path p flags fd cache hp hg ht ho => exact .opening p fd cell hg.1
  | transferSent => exact .transfer ..
  | lseekSent => exact .seeking ..
  | closeSent => exact .closing ..

theorem Kind.host_eq {s : Sent} (h : Kind cfg s) : s.host = cfg.host s.path := by cases h <;> rfl

theorem Kind.silent_iff {s : Sent} (h : Kind cfg s) :
    s.callback = .none ↔ ∃ inp, s.request = .closeRpc inp := by
  cases h <;> simp

theorem Kind.read_request {s : Sent} (h : Kind cfg s) {buf cell : Addr}
    (hcb : s.callback = .readCb buf cell) : ∃ inp, s.request = .baseRpc inp := by
  cases h <;> simp_all

/-- The messages in flight: what was forwarded, under numbers already used. -/
structure NetOk (cfg : Config) (net : PMap ℕ (Flight C)) (next : ℕ) : Prop where
  fresh : ∀ id, next ≤ id → net id = none
  kind : ∀ id f, net id = some f → Kind cfg f.sent
  closing : ∀ id f, net id = some f → f.sent.callback = .none → f.stage = .request

variable {net : PMap ℕ (Flight C)} {next : ℕ}

theorem NetOk.lt (h : NetOk cfg net next) {id : ℕ} {f : Flight C} (hf : net id = some f) :
    id < next := by
  by_contra hle
  simp [h.fresh id (by omega)] at hf

theorem post_net (h : NetOk cfg net next) {c : C} {s : Sent} (hk : Kind cfg s) :
    NetOk cfg (net.insert next ⟨c, s, .request⟩) (next + 1) := by
  refine ⟨fun id hid ↦ ?_, fun id f hf ↦ ?_, fun id f hf hcb ↦ ?_⟩
  · simp [show id ≠ next by omega, h.fresh id (by omega)]
  · by_cases hid : id = next
    · obtain rfl := Option.some.inj (by simpa [hid] using hf)
      exact hk
    · exact h.kind id f (by simpa [hid] using hf)
  · by_cases hid : id = next
    · obtain rfl := Option.some.inj (by simpa [hid] using hf)
      rfl
    · exact h.closing id f (by simpa [hid] using hf) hcb

theorem setStage_net (h : NetOk cfg net next) {id : ℕ} {f : Flight C} (hf : net id = some f)
    (hcb : f.sent.callback ≠ .none) (stage : Stage) :
    NetOk cfg (net.insert id { f with stage := stage }) next := by
  refine ⟨fun j hj ↦ ?_, fun j g hg ↦ ?_, fun j g hg hn ↦ ?_⟩
  · have hlt := h.lt hf
    simp [show j ≠ id by omega, h.fresh j hj]
  · by_cases hne : j = id
    · obtain rfl := Option.some.inj (by simpa [hne] using hg)
      exact h.kind id f hf
    · exact h.kind j g (by simpa [hne] using hg)
  · by_cases hne : j = id
    · obtain rfl := Option.some.inj (by simpa [hne] using hg)
      exact absurd hn hcb
    · exact h.closing j g (by simpa [hne] using hg) hn

theorem erase_net (h : NetOk cfg net next) (id : ℕ) : NetOk cfg (net.erase id) next := by
  have hold {j : ℕ} {g : Flight C} (hg : net.erase id j = some g) : net j = some g := by
    by_cases hne : j = id
    · simp [hne] at hg
    · simpa [hne] using hg
  refine ⟨fun j hj ↦ ?_, fun j g hg ↦ h.kind j g (hold hg), fun j g hg ↦ h.closing j g (hold hg)⟩
  by_cases hne : j = id <;> simp [hne, h.fresh j hj]

/-- What becomes of a request a server has taken up: a close request leaves the
network or stays with a server that has stopped, others go on to their next stage. -/
inductive Taken (w : World C) (id : ℕ) (f : Flight C) : Handled → World C → Prop
  | aborted (a : Assertion) : Taken w id f (.aborted a)
      (w.setServer f.sent.host { w.servers f.sent.host with aborted := true })
  | responded (srv : Server) (out : ℤ) (hcb : f.sent.callback ≠ .none) :
      Taken w id f (.responded srv out) (((w.setServer f.sent.host srv).setFlight id
        { f with stage := .reply out }).noteServed id f.sent out)
  | pushing (srv : Server) (bytes : Bytes) (hcb : f.sent.callback ≠ .none) :
      Taken w id f (.pushing srv bytes)
        ((w.setServer f.sent.host srv).setFlight id { f with stage := .push bytes })
  | silent (srv : Server) (hcb : f.sent.callback = .none) :
      Taken w id f (.silent srv) ((w.setServer f.sent.host srv).dropFlight id)

theorem handled_taken (w : World C) (id : ℕ) {f : Flight C} (hk : Kind cfg f.sent)
    (srv : Server) (env : Env) :
    Taken w id f (srv.handle f.sent.request env)
      (w.handled id f (srv.handle f.sent.request env)) := by
  by_cases hcb : f.sent.callback = .none
  · obtain ⟨inp, hreq⟩ := hk.silent_iff.mp hcb
    rw [hreq]
    rcases srv.handle_closeRpc inp env with ⟨s, hs⟩ | hs
    · rw [hs]
      exact .silent s hcb
    · rw [hs]
      exact .aborted _
  · cases hs : srv.handle f.sent.request env with
    | aborted a => exact .aborted a
    | responded s out => exact .responded s out hcb
    | pushing s bytes => exact .pushing s bytes hcb
    | silent s => exact absurd (hk.silent_iff.mpr (Server.handle_silent hs)) hcb

theorem handled_servers (w : World C) (id : ℕ) (f : Flight C) (r : Handled) :
    (w.handled id f r).servers =
      Function.update w.servers f.sent.host (r.after (w.servers f.sent.host)) := by
  cases r <;> simp [handled, setServer, setFlight, dropFlight, Handled.after]

theorem handled_net (w : World C) (f : Flight C) (r : Handled) {id j : ℕ} (hj : j ≠ id) :
    (w.handled id f r).net j = w.net j := by
  cases r <;> simp [handled, setServer, setFlight, dropFlight, hj]

theorem handled_next (w : World C) (id : ℕ) (f : Flight C) (r : Handled) :
    (w.handled id f r).next = w.next := by
  cases r <;> simp [handled, setServer, setFlight, dropFlight]

theorem handled_clients (w : World C) (id : ℕ) (f : Flight C) (r : Handled) :
    (w.handled id f r).clients = w.clients := by
  cases r <;> simp [handled, setServer, setFlight, dropFlight]

theorem handled_trace (w : World C) (id : ℕ) (f : Flight C) (r : Handled) :
    (w.handled id f r).hist.trace = w.hist.trace := by
  cases r <;> simp [handled, setServer, setFlight, dropFlight]

theorem taken_net {w w' : World C} {id : ℕ} {f : Flight C} {r : Handled}
    (h : NetOk cfg w.net w.next) (hf : w.net id = some f) (ht : Taken w id f r w') :
    NetOk cfg w'.net w'.next := by
  cases ht with
  | aborted a => exact h
  | responded srv out hcb =>
    simpa [setServer, setFlight] using setStage_net h hf hcb (.reply out)
  | pushing srv bytes hcb => exact setStage_net h hf hcb (.push bytes)
  | silent srv hcb => exact erase_net h id

variable [DecidableEq C]

theorem steps_net {w w' : World C} {l : Label C} (h : NetOk cfg w.net w.next)
    (hs : Steps cfg w l w') : NetOk cfg w'.net w'.next := by
  cases hs with
  | returnNow c k cell cl hb hs => simpa [returned, setClient] using h
  | fire c k cell cl s hb hs hcb =>
    simpa [returned, setClient, post, setFlight] using post_net h (started_kind hs)
  | block c k cell cl s hb hs hcb =>
    simpa [setClient, post, setFlight] using post_net h (started_kind hs)
  | serve id env f hf hst ha => exact taken_net h hf (handled_taken w id (h.kind id f hf) _ env)
  | push id f bytes buf cell hf hst hcb => exact setStage_net h hf (by simp [hcb]) _
  | reply id f out cl hf hst hc => simpa [setClient, dropFlight] using erase_net h id
  | wake c p hb hr => exact h
  | giveUp c p hb ht => exact h
  | mover h' m srv ha hm => exact h
  | store c a bytes hb => exact h

theorem steps_serving {w w' : World C} {l : Label C} (hs : Steps cfg w l w') {x : ℕ × Env}
    (hx : x ∈ l.serving) {f : Flight C} (hf : w.net x.1 = some f) : f.stage = .request := by
  cases hs with
  | serve id env g hg hst ha =>
    cases hx
    obtain rfl : g = f := Option.some.inj (hg.symm.trans hf)
    exact hst
  | returnNow => cases hx
  | fire => cases hx
  | block => cases hx
  | push => cases hx
  | reply => cases hx
  | wake => cases hx
  | giveUp => cases hx
  | mover => cases hx
  | store => cases hx

theorem steps_next {w w' : World C} {l : Label C} (hs : Steps cfg w l w') :
    w.next ≤ w'.next := by
  cases hs with
  | returnNow => simp [returned, setClient]
  | fire => simp [returned, setClient, post, setFlight]
  | block => simp [setClient, post, setFlight]
  | serve => rw [handled_next]
  | reply => simp [setClient, dropFlight]
  | _ => exact le_rfl

/-- A request in flight was there before the step, or a call has just forwarded it
under the next number. -/
theorem steps_flight {w w' : World C} {l : Label C} (hs : Steps cfg w l w') {id : ℕ}
    {f : Flight C} (hf : w'.net id = some f) :
    (∃ g, w.net id = some g ∧ f.client = g.client ∧ f.sent = g.sent) ∨
      id = w.next ∧ ∃ k cell cl, l = .call f.client k cell ∧
        (w.clients f.client).blocked = none ∧
        Started cfg (w.clients f.client) cell k cl (some f.sent) := by
  have hpost {c : C} {s : Sent} (h : w.net.insert w.next ⟨c, s, .request⟩ id = some f) :
      (∃ g, w.net id = some g ∧ f.client = g.client ∧ f.sent = g.sent) ∨
        id = w.next ∧ f = ⟨c, s, .request⟩ := by
    by_cases hid : id = w.next
    · exact .inr ⟨hid, by simpa [hid, eq_comm] using h⟩
    · exact .inl ⟨f, by simpa [hid] using h, rfl, rfl⟩
  have hstage {j : ℕ} {g : Flight C} (hg : w.net j = some g) (stage : Stage)
      (h : w.net.insert j { g with stage := stage } id = some f) :
      ∃ g, w.net id = some g ∧ f.client = g.client ∧ f.sent = g.sent := by
    by_cases hid : id = j
    · obtain rfl := Option.some.inj (by simpa [hid] using h)
      exact ⟨g, by rwa [hid], rfl, rfl⟩
    · exact ⟨f, by simpa [hid] using h, rfl, rfl⟩
  have herase (j : ℕ) (h : w.net.erase j id = some f) :
      ∃ g, w.net id = some g ∧ f.client = g.client ∧ f.sent = g.sent := by
    by_cases hid : id = j
    · simp [hid] at h
    · exact ⟨f, by simpa [hid] using h, rfl, rfl⟩
  cases hs with
  | returnNow c k cell cl hb hs => exact .inl ⟨f, by simpa [returned, setClient] using hf, rfl, rfl⟩
  | fire c k cell cl s hb hs hcb =>
    refine (hpost (by simpa [returned, setClient, post, setFlight] using hf)).imp_right ?_
    intro hx
    obtain ⟨hid, rfl⟩ := hx
    exact ⟨hid, k, cell, cl, rfl, hb, hs⟩
  | block c k cell cl s hb hs hcb =>
    refine (hpost (by simpa [setClient, post, setFlight] using hf)).imp_right ?_
    intro hx
    obtain ⟨hid, rfl⟩ := hx
    exact ⟨hid, k, cell, cl, rfl, hb, hs⟩
  | serve j env g hg hst ha =>
    refine .inl ?_
    cases hr : (w.servers g.sent.host).handle g.sent.request env with
    | aborted a => exact ⟨f, by simpa [hr, handled, setServer] using hf, rfl, rfl⟩
    | responded srv out =>
      exact hstage hg (.reply out) (by simpa [hr, handled, setServer, setFlight] using hf)
    | pushing srv bytes =>
      rw [hr] at hf
      exact hstage hg (.push bytes) hf
    | silent srv =>
      rw [hr] at hf
      exact herase j hf
  | push j g bytes buf cell hg hst hcb => exact .inl (hstage hg _ hf)
  | reply j g out cl hg hst hc => exact .inl (herase j (by simpa [setClient, dropFlight] using hf))
  | wake c p hb hr => exact .inl ⟨f, hf, rfl, rfl⟩
  | giveUp c p hb ht => exact .inl ⟨f, hf, rfl, rfl⟩
  | mover h' m srv ha hm => exact .inl ⟨f, hf, rfl, rfl⟩
  | store c a bytes hb => exact .inl ⟨f, hf, rfl, rfl⟩

/-- What holds of every request when it is forwarded holds as long as it is in flight. -/
theorem steps_sent {w w' : World C} {l : Label C} {P : Sent → Prop}
    (h : ∀ id f, w.net id = some f → P f.sent) (hs : Steps cfg w l w')
    (hnew : ∀ c k cell cl s, (w.clients c).blocked = none →
      Started cfg (w.clients c) cell k cl (some s) → P s) :
    ∀ id f, w'.net id = some f → P f.sent := by
  intro id f hf
  rcases steps_flight hs hf with ⟨g, hg, -, hsent⟩ | ⟨-, k, cell, cl, -, hb, hst⟩
  · rw [hsent]
    exact h id g hg
  · exact hnew f.client k cell cl f.sent hb hst

theorem complete_fdMap {cl cl' : Client} {out : ℤ} {cb : Callback}
    (h : cl.complete out cb = .ok cl') : cl'.fdMap = cl.fdMap := by
  cases cb <;> cases h <;> rfl

theorem update_kept {β : Type} (field : Client → β) {clients : C → Client} {c : C} {cl : Client}
    (h : field cl = field (clients c)) (c' : C) :
    field (Function.update clients c cl c') = field (clients c') := by
  by_cases hc : c' = c
  · subst c'
    simpa using h
  · simp [hc]

/-- Only calls and open replies change what a client tracks. -/
theorem steps_maps {w w' : World C} {l : Label C} (hs : Steps cfg w l w')
    (hcall : l.calling = none) (hreply : ∀ id, l ≠ .reply id) (c : C) :
    (w'.clients c).fdMap = (w.clients c).fdMap ∧
      (w'.clients c).fdRedirMap = (w.clients c).fdRedirMap := by
  have hset {c' : C} {cl : Client}
      (hm : cl.fdMap = (w.clients c').fdMap ∧ cl.fdRedirMap = (w.clients c').fdRedirMap) :
      (Function.update w.clients c' cl c).fdMap = (w.clients c).fdMap ∧
        (Function.update w.clients c' cl c).fdRedirMap = (w.clients c).fdRedirMap :=
    ⟨update_kept fdMap hm.1 c, update_kept fdRedirMap hm.2 c⟩
  cases hs with
  | returnNow => cases hcall
  | fire => cases hcall
  | block => cases hcall
  | reply id => exact absurd rfl (hreply id)
  | serve id env f hf hst ha =>
    rw [handled_clients]
    exact ⟨rfl, rfl⟩
  | push id f bytes buf cell hf hst hcb => exact hset ⟨rfl, rfl⟩
  | wake c' p hb hr => exact hset (finishCall_maps cfg _ p.call _)
  | giveUp c' p hb ht => exact hset (finishCall_maps cfg _ p.call _)
  | mover host m srv ha hm => exact ⟨rfl, rfl⟩
  | store c' a bytes hb => exact hset ⟨rfl, rfl⟩

theorem reply_fdMap {w : World C} {id : ℕ} {f : Flight C} {out : ℤ} {cl : Client}
    (hc : (w.clients f.client).complete out f.sent.callback = .ok cl) (c : C) :
    ((((w.setClient f.client cl).dropFlight id).noteReply id f.client
      f.sent.callback).clients c).fdMap = (w.clients c).fdMap := by
  simpa [setClient, dropFlight] using update_kept fdMap (complete_fdMap hc) c

/-- A step leaves a server as it is, has it handle a request, or moves its data mover. -/
theorem steps_server {w w' : World C} {l : Label C} (hs : Steps cfg w l w') (host : Host) :
    w'.servers host = w.servers host ∨
      (∃ id env f, l = .serve id env ∧ w.net id = some f ∧ f.sent.host = host ∧
        w'.servers host =
          ((w.servers host).handle f.sent.request env).after (w.servers host)) ∨
      Server.Moves (w.servers host) (w'.servers host) := by
  cases hs with
  | returnNow c k cell cl hb hs => exact .inl (by simp [returned, setClient])
  | fire c k cell cl s hb hs hcb => exact .inl (by simp [returned, setClient, post, setFlight])
  | block c k cell cl s hb hs hcb => exact .inl (by simp [setClient, post, setFlight])
  | serve id env f hf hst ha =>
    rw [handled_servers]
    by_cases hh : host = f.sent.host
    · subst hh
      exact .inr (.inl ⟨id, env, f, rfl, hf, rfl, Function.update_self ..⟩)
    · exact .inl (Function.update_of_ne hh ..)
  | push id f bytes buf cell hf hst hcb => exact .inl rfl
  | reply id f out cl hf hst hc => exact .inl (by simp [setClient, dropFlight])
  | wake c p hb hr => exact .inl rfl
  | giveUp c p hb ht => exact .inl rfl
  | mover h' m srv ha hm =>
    simp only [setServer]
    by_cases hh : host = h'
    · subst hh
      rw [Function.update_self]
      exact .inr (.inr hm)
    · exact .inl (Function.update_of_ne hh ..)
  | store c a bytes hb => exact .inl rfl

/-- How a client comes to be blocked in `p` after a step: the step is the call, or the
client has been and the step passes it by, handles its request, or delivers a message. -/
inductive Pends (cfg : Config) (w : World C) (c : C) (p : Pending) : Label C → World C → Prop
  | blocks (k : Call) (cell : Addr) (cl : Client) (s : Sent) (w' : World C)
      (hp : p = ⟨k, w.next, s.host, cell⟩) (hs : Started cfg (w.clients c) cell k cl (some s))
      (hcb : s.callback ≠ .none) (hnext : w'.next = w.next + 1)
      (hnet : w'.net w.next = some ⟨c, s, .request⟩)
      (hcl : w'.clients c = { cl with blocked := some p }) : Pends cfg w c p (.call c k cell) w'
  | aside (l : Label C) (w' : World C) (hl : (∀ id, l ≠ .reply id) ∧ ∀ k cell, l ≠ .call c k cell)
      (hserve : ∀ env, l ≠ .serve p.request env) (hp : p ∈ (w.clients c).blocked)
      (hnext : w.next ≤ w'.next)
      (hnet : p.request < w.next → w'.net p.request = w.net p.request)
      (hcl : w'.clients c = w.clients c) : Pends cfg w c p l w'
  | served (env : Env) (f : Flight C) (hp : p ∈ (w.clients c).blocked)
      (hf : w.net p.request = some f) (hst : f.stage = .request) :
      Pends cfg w c p (.serve p.request env)
        (w.handled p.request f ((w.servers f.sent.host).handle f.sent.request env))
  | pushed (id : ℕ) (f : Flight C) (bytes : Bytes) (buf cell : Addr)
      (hp : p ∈ (w.clients c).blocked) (hf : w.net id = some f) (hst : f.stage = .push bytes)
      (hcb : f.sent.callback = .readCb buf cell) :
      Pends cfg w c p (.push id) ((w.setClient f.client { w.clients f.client with
        memory := (w.clients f.client).memory.store buf bytes }).setFlight id
          { f with stage := .reply (Server.ftcRpcHandlerBulkCb bytes) })
  | replied (id : ℕ) (f : Flight C) (out : ℤ) (cl : Client) (hp : p ∈ (w.clients c).blocked)
      (hf : w.net id = some f) (hst : f.stage = .reply out)
      (hc : (w.clients f.client).complete out f.sent.callback = .ok cl) :
      Pends cfg w c p (.reply id)
        (((w.setClient f.client cl).dropFlight id).noteReply id f.client f.sent.callback)

theorem steps_pends {w w' : World C} {l : Label C} (hs : Steps cfg w l w') {c : C} {p : Pending}
    (hp : p ∈ (w'.clients c).blocked) : Pends cfg w c p l w' := by
  have haside {l : Label C} {v : World C} (hp : p ∈ (v.clients c).blocked)
      (hcl : v.clients c = w.clients c) (hnext : w.next ≤ v.next)
      (hnet : p.request < w.next → v.net p.request = w.net p.request)
      (hl : (∀ id, l ≠ .reply id) ∧ ∀ k cell, l ≠ .call c k cell)
      (hserve : ∀ env, l ≠ .serve p.request env) : Pends cfg w c p l v :=
    .aside l v hl hserve (hcl ▸ hp) hnext hnet hcl
  have hpost {f : Flight C} (hlt : p.request < w.next) :
      w.net.insert w.next f p.request = w.net p.request := by simp [hlt.ne]
  cases hs with
  | returnNow c' k cell cl hb hs =>
    by_cases hc : c = c'
    · subst hc
      simp [returned, setClient, finishCall_blocked, started_blocked hs, hb] at hp
    · exact haside hp (by simp [returned, setClient, hc]) (by simp [returned, setClient])
        (fun _ ↦ by simp [returned, setClient]) (by simp [Ne.symm hc]) (by simp)
  | fire c' k cell cl s hb hs hcb =>
    by_cases hc : c = c'
    · subst hc
      simp [returned, setClient, finishCall_blocked, started_blocked hs, hb] at hp
    · exact haside hp (by simp [returned, setClient, post, setFlight, hc])
        (by simp [returned, setClient, post, setFlight])
        (by simpa [returned, setClient, post, setFlight] using hpost) (by simp [Ne.symm hc])
        (by simp)
  | block c' k cell cl s hb hs hcb =>
    by_cases hc : c = c'
    · subst hc
      obtain rfl : ⟨k, w.next, s.host, cell⟩ = p := by simpa [setClient] using hp
      exact .blocks k cell cl s _ rfl hs hcb (by simp [setClient, post, setFlight])
        (by simp [setClient, post, setFlight]) (by simp [setClient])
    · exact haside hp (by simp [setClient, post, setFlight, hc])
        (by simp [setClient, post, setFlight]) (by simpa [setClient, post, setFlight] using hpost)
        (by simp [Ne.symm hc]) (by simp)
  | serve id env f hf hst ha =>
    have hcl := congrFun (handled_clients w id f
      ((w.servers f.sent.host).handle f.sent.request env)) c
    by_cases hid : p.request = id
    · subst hid
      exact .served env f (hcl ▸ hp) hf hst
    · exact haside hp hcl (by rw [handled_next]) (fun _ ↦ handled_net w f _ hid) (by simp)
        (by simp [Ne.symm hid])
  | push id f bytes buf cell hf hst hcb =>
    simp only [setClient, setFlight] at hp
    rw [update_kept blocked] at hp
    · exact .pushed id f bytes buf cell hp hf hst hcb
    · rfl
  | reply id f out cl hf hst hc =>
    simp only [noteReply_clients, dropFlight, setClient] at hp
    rw [update_kept blocked (complete_blocked hc)] at hp
    exact .replied id f out cl hp hf hst hc
  | wake c' q hb hr =>
    by_cases hc : c = c'
    · subst hc
      simp [returned, setClient, finishCall_blocked] at hp
    · exact haside hp (by simp [returned, setClient, hc]) le_rfl (fun _ ↦ rfl) (by simp) (by simp)
  | giveUp c' q hb ht =>
    by_cases hc : c = c'
    · subst hc
      simp [returned, setClient, finishCall_blocked, timeOut] at hp
    · exact haside hp (by simp [returned, setClient, hc]) le_rfl (fun _ ↦ rfl) (by simp) (by simp)
  | mover h' m srv ha hm => exact haside hp rfl le_rfl (fun _ ↦ rfl) (by simp) (by simp)
  | store c' a bytes hb =>
    by_cases hc : c = c'
    · subst hc
      simp [setClient, hb] at hp
    · exact haside hp (by simp [setClient, hc]) le_rfl (fun _ ↦ rfl) (by simp) (by simp)

/-- How a step ends calls of a client: the call itself ends it, at once or with its
request on the way, or the client wakes or gives up. -/
inductive Returns (cfg : Config) (w : World C) (c : C) : Label C → List (Call × Result) → Prop
  | aside (l : Label C) : Returns cfg w c l []
  | atOnce (k : Call) (cell : Addr) (cl : Client)
      (hs : Started cfg (w.clients c) cell k cl none) :
      Returns cfg w c (.call c k cell) [(k, (cl.finishCall cfg k (-1)).2)]
  | fired (k : Call) (cell : Addr) (cl : Client) (s : Sent)
      (hs : Started cfg (w.clients c) cell k cl (some s)) (hcb : s.callback = .none) :
      Returns cfg w c (.call c k cell) [(k, (cl.finishCall cfg k 0).2)]
  | woken (p : Pending) (hp : p ∈ (w.clients c).blocked) (hr : (w.clients c).replied p = true) :
      Returns cfg w c (.wake c) [(p.call, ({ w.clients c with blocked := none }.finishCall cfg
        p.call ((w.clients c).remoteValue p)).2)]
  | givenUp (p : Pending) (hp : p ∈ (w.clients c).blocked) (ht : timed p.call = true) :
      Returns cfg w c (.giveUp c) [(p.call, (({ w.clients c with blocked := none }.timeOut
        p.host).finishCall cfg p.call (-1)).2)]

theorem steps_returns {w w' : World C} {l : Label C} (hs : Steps cfg w l w') (c : C) :
    ∃ xs, w'.hist.trace c = w.hist.trace c ++ xs ∧ Returns cfg w c l xs := by
  have haside {l : Label C} {v : World C} (h : v.hist.trace c = w.hist.trace c) :
      ∃ xs, v.hist.trace c = w.hist.trace c ++ xs ∧ Returns cfg w c l xs :=
    ⟨[], by rw [h, List.append_nil], .aside l⟩
  cases hs with
  | returnNow c' k cell cl hb hs =>
    by_cases hc : c = c'
    · subst hc
      exact ⟨_, by simp [returned, setClient], .atOnce k cell cl hs⟩
    · exact haside (by simp [returned, setClient, hc])
  | fire c' k cell cl s hb hs hcb =>
    by_cases hc : c = c'
    · subst hc
      exact ⟨_, by simp [returned, setClient, post, setFlight], .fired k cell cl s hs hcb⟩
    · exact haside (by simp [returned, setClient, post, setFlight, hc])
  | block c' k cell cl s hb hs hcb => exact haside (by simp [setClient, post, setFlight])
  | serve id env f hf hst ha => exact haside (by rw [handled_trace])
  | push id f bytes buf cell hf hst hcb => exact haside rfl
  | reply id f out cl hf hst hc => exact haside (by simp [setClient, dropFlight])
  | wake c' p hb hr =>
    by_cases hc : c = c'
    · subst hc
      exact ⟨_, Function.update_self .., .woken p hb hr⟩
    · exact haside (by simp [returned, setClient, hc])
  | giveUp c' p hb ht =>
    by_cases hc : c = c'
    · subst hc
      exact ⟨_, Function.update_self .., .givenUp p hb ht⟩
    · exact haside (by simp [returned, setClient, hc])
  | mover h' m srv ha hm => exact haside rfl
  | store c' a bytes hb => exact haside rfl

theorem start_net (job : Job) (C : Type) : NetOk job.cfg (job.start C).net (job.start C).next := by
  refine ⟨?_, ?_, ?_⟩ <;> simp [Job.start]

end FTCache.Flights
