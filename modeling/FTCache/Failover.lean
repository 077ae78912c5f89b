import FTCache.KeptOpen
import FTCache.Reference
import FTCache.Stalls

namespace FTCache.Failover

open Runs Posix Words Replay World Client Server Flights StackFrames Descriptors NvmeCache
open Reference KeptOpen Stalls

variable {C : Type} {y : Layout} {cfg : Config}

/-- The calls that go by the position of `fd` or set it. -/
def sequential (fd : Fd) : Call → Bool
  | .openFile _ _ _ => false
  | .read j _ _ => j = fd
  | .pread _ _ _ _ => false
  | .lseek j _ _ => j = fd
  | .close _ => false

/-- Where a call leaves the position, to judge by the value it has returned. -/
def moved (n : ℕ) (x : Call × Result) : ℕ :=
  match x.1 with
  | .read _ _ _ => n + x.2.ret.toNat
  | .lseek _ _ _ => if x.2.ret < 0 then n else x.2.ret.toNat
  | _ => n

/-- Where the calls of a history leave the position of a descriptor of `t₀`. -/
def position (fd : Fd) (t₀ : Table Path) (xs : List (Call × Result)) : ℕ :=
  xs.foldl moved (((t₀ fd).map Description.pos).getD 0)

/-- The sequential calls on `fd` that `c` has made after its first `k` calls. -/
def calls (fd : Fd) (k : ℕ) (w : World C) (c : C) : List (Call × Result) :=
  ((w.hist.trace c).drop k).filter fun x ↦ sequential fd x.1

/-- `stood` is a history variable: the offset at which the server descriptor of a file stood
when its server answered, by it, the request of the call that the client waits in. -/
structure Watched (C : Type) where
  spaces : Spaces C
  stood : Option ℕ

/-- The offset of the server descriptor `a` as it answers a request; none for a
read that is answered by another descriptor. -/
def stands (a : Fd) (srv : Server) (env : Env) (r : Request) : Option ℕ :=
  if OwnFile.OwnRead srv env r then (srv.fds a).map Description.pos else none

namespace Watched

variable [DecidableEq C] (cfg : Config) (c : C) (fd a : Fd) (v : Watched C)

def note : Label C → Option ℕ
  | .call c' _ _ => if c' = c then none else v.stood
  | .serve id env =>
    if ∃ p ∈ (v.spaces.world.clients c).blocked, p.request = id then
      (v.spaces.world.net id).bind fun f ↦
        stands a (v.spaces.world.servers f.sent.host) env f.sent.request
    else v.stood
  | _ => v.stood

def step (y : Layout) (v : Watched C) (m : Move C) : Option (Watched C) :=
  (v.spaces.step y cfg m).map fun s ↦ ⟨s, m.label.elim v.stood (v.note c a)⟩

/-- The call of `c` that a step ends, and where the description stands that gives the result:
the server's, or the kernel's for a transfer that was not sent, has failed or is given up. -/
def ends : Label C → Option (Call × Option ℕ)
  | .call c' k _ =>
    let cl := v.spaces.world.clients c
    if c' = c ∧ k.transfer.isSome ∧ ∀ p ∈ cl.fdMap fd, cl.overLimit (cfg.host p) then
      some (k, (cl.kernel fd).map Description.pos)
    else none
  | .wake c' =>
    let cl := v.spaces.world.clients c
    if c' = c then
      cl.blocked.map fun p ↦ (p.call, if p.call.transfer.isSome ∧ cl.remoteValue p < 0 then
        (cl.kernel fd).map Description.pos else v.stood)
    else none
  | .giveUp c' =>
    let cl := v.spaces.world.clients c
    if c' = c then cl.blocked.map fun p ↦ (p.call, (cl.kernel fd).map Description.pos) else none
  | _ => none

end Watched

/-- A call that goes by the position gets its result from a description that stands at `n`. -/
def Finds (fd : Fd) (n : ℕ) (x : Call × Option ℕ) : Prop :=
  match x.1 with
  | .read j _ _ => j = fd → x.2 = some n
  | .lseek j _ whence => j = fd → whence = 1 → x.2 = some n
  | _ => True

instance (fd : Fd) (n : ℕ) (x : Call × Option ℕ) : Decidable (Finds fd n x) := by
  unfold Finds
  split <;> infer_instance

/-- After the calls `xs`, a call that ends is within the ranges and finds the position. -/
def Placed (cfg : Config) (fd : Fd) (t₀ : Table Path) (xs : List (Call × Result))
    (x : Call × Option ℕ) : Prop :=
  (sequential fd x.1 = true → InRange cfg (after (posix cfg) t₀ xs) x.1) ∧
    Finds fd (position fd t₀ xs) x

instance (cfg : Config) (fd : Fd) (t₀ : Table Path) (xs : List (Call × Result))
    (x : Call × Option ℕ) : Decidable (Placed cfg fd t₀ xs x) :=
  inferInstanceAs (Decidable ((_ → _) ∧ _))

section Permitted

variable [DecidableEq C]

/-- The file stays open, late messages pass by, and each call that ends is within the ranges
and answered by a description that stands at the position. -/
def Permitted (y : Layout) (cfg : Config) (c : C) (fd a : Fd) (path : Path) (k : ℕ)
    (t₀ : Table Path) (v : Watched C) (m : Move C) : Prop :=
  ∀ l ∈ m.label, Undisturbed y cfg c fd a path v.spaces.world l ∧
    ∀ x ∈ v.ends cfg c fd l, Placed cfg fd t₀ (calls fd k v.spaces.world c) x

instance (y : Layout) (cfg : Config) (c : C) (fd a : Fd) (path : Path) (k : ℕ) (t₀ : Table Path)
    (v : Watched C) (m : Move C) : Decidable (Permitted y cfg c fd a path k t₀ v m) :=
  inferInstanceAs (Decidable (∀ l ∈ m.label, _ ∧ ∀ x ∈ v.ends cfg c fd l, _))

end Permitted

/-- The history so far is that of one description, which stands at the position. -/
structure Follows (cfg : Config) (fd : Fd) (path : Path) (t₀ : Table Path)
    (xs : List (Call × Result)) : Prop where
  agrees : Agrees (posix cfg) t₀ xs
  stands : after (posix cfg) t₀ xs fd = some ⟨path, position fd t₀ xs⟩

section History

variable {fd : Fd} {path : Path} {t₀ : Table Path} {xs : List (Call × Result)} {b : Bytes}

theorem position_concat (x : Call × Result) :
    position fd t₀ (xs ++ [x]) = moved (position fd t₀ xs) x := by
  simp [position]

theorem Follows.start (h : (t₀ fd).map Description.file = some path) :
    Follows cfg fd path t₀ [] := by
  obtain ⟨⟨q, n⟩, hd, rfl⟩ := Option.map_eq_some_iff.mp h
  exact ⟨trivial, by simp [after, position, hd]⟩

theorem Follows.read (h : Follows cfg fd path t₀ xs) (hb : cfg.files path = some b) (buf : Addr)
    (count : ℕ) {bytes : Bytes} (hbytes : bytes = slice b (position fd t₀ xs) count) :
    Follows cfg fd path t₀ (xs ++ [(.read fd buf count, ⟨bytes.length, bytes⟩)]) := by
  have hposix := posix_read h.stands hb buf count
  subst hbytes
  refine ⟨(agrees_concat _ _ _).mpr ⟨h.agrees, by rw [hposix]⟩, ?_⟩
  rw [after_concat, hposix, position_concat]
  simp [moved]

theorem Follows.lseek (h : Follows cfg fd path t₀ xs) (hb : cfg.files path = some b)
    (offset whence : ℤ) {ret : ℤ}
    (hret : ret = offsetReturned (seekTarget b.length (position fd t₀ xs) offset whence)) :
    Follows cfg fd path t₀ (xs ++ [(.lseek fd offset whence, ⟨ret, []⟩)]) := by
  obtain ⟨t, hposix, hmoved⟩ := posix_lseek h.stands hb offset whence
  subst hret
  refine ⟨(agrees_concat _ _ _).mpr ⟨h.agrees, by rw [hposix]⟩, ?_⟩
  rw [after_concat, hposix, position_concat]
  refine hmoved.trans ?_
  cases seekTarget b.length (position fd t₀ xs) offset whence with
  | none => simp [moved]
  | some n => simp [moved, show ¬(n : ℤ) < 0 by omega]

end History

variable {w w' : World C} {c : C} {fd a : Fd} {path : Path} {b : Bytes} {p : Pending}
variable {l : Label C} {stood stood' : Option ℕ}

def seekSent (cfg : Config) (path : Path) (a : Fd) (offset whence : ℤ) : Sent :=
  ⟨cfg.host path, path, .seekRpc ⟨a, int32 offset, whence⟩, .seekCb⟩

/-- What a server answers that seeks by a descriptor of the file. -/
def Sought (b : Bytes) (stood : Option ℕ) (offset whence out : ℤ) : Prop :=
  ∃ n ∈ stood, out = int32 (offsetReturned (seekTarget b.length n (int32 offset) whence))

/-- How far the request of a seek has come. -/
def SeekStands (c : C) (cl : Client) (sent : Sent) (value : ℤ → Prop) : Option (Flight C) → Prop
  | none => value cl.readRet
  | some f => (f.client = c ∧ f.sent = sent) ∧
    match f.stage with
    | .request => True
    | .push _ => False
    | .reply out => value out

/-- A seek of `fd` in progress waits for where its server has sought to. -/
def SeekWaits (cfg : Config) (w : World C) (c : C) (fd a : Fd) (path : Path) (b : Bytes)
    (stood : Option ℕ) (p : Pending) : Prop :=
  ∀ offset whence, p.call = .lseek fd offset whence →
    SeekStands c (w.clients c) (seekSent cfg path a offset whence) (Sought b stood offset whence)
      (w.net p.request)

theorem SeekWaits.kept (h : SeekWaits cfg w c fd a path b stood p)
    (hnet : w'.net p.request = w.net p.request)
    (hret : (w'.clients c).readRet = (w.clients c).readRet) :
    SeekWaits cfg w' c fd a path b stood p := by
  intro offset whence hk
  have hs := h offset whence hk
  rw [hnet]
  cases hf : w.net p.request with
  | none =>
    rw [hf] at hs
    simpa only [SeekStands, hret] using hs
  | some f =>
    rw [hf] at hs
    exact hs

theorem seek_handled {srv : Server} (hback : Backs cfg srv a path) (hb : cfg.files path = some b)
    (offset whence : ℤ) (env : Env) :
    ∃ n, (srv.fds a).map Description.pos = some n ∧
      ∃ srv', srv.handle (.seekRpc ⟨a, offset, whence⟩) env = .responded srv'
        (int32 (offsetReturned (seekTarget b.length n offset whence))) := by
  obtain ⟨q, n, b', hfd, hq, hb', -⟩ := hback
  obtain rfl : b = b' := Option.some.inj (hb.symm.trans hb')
  obtain ⟨hout, -⟩ := lseek_of_open hfd hq offset whence
  refine ⟨n, by simp [hfd], { srv with fds := (lseek srv.files srv.fds a offset whence).2 }, ?_⟩
  simp only [Server.handle, Server.ftcSeekRpcHandler, hout]

variable [DecidableEq C]

/-- The step answers the request of the call that `c` waits in, or leaves what is noted. -/
theorem note_of_blocked {v : Watched C} (hp : p ∈ (v.spaces.world.clients c).blocked)
    (hserve : ∀ env, l ≠ .serve p.request env) (hcall : ∀ k cell, l ≠ .call c k cell) :
    v.note c a l = v.stood := by
  cases l with
  | call c' k cell =>
    have hc : c' ≠ c := by
      rintro rfl
      exact hcall k cell rfl
    simp [Watched.note, hc]
  | serve id env =>
    have hid : p.request ≠ id := by
      rintro rfl
      exact hserve env rfl
    have hblocked : (v.spaces.world.clients c).blocked = some p := hp
    simp [Watched.note, hblocked, hid]
  | push id => rfl
  | reply id => rfl
  | wake c' => rfl
  | giveUp c' => rfl
  | mover h m => rfl
  | store c' x bytes => rfl

theorem note_served {v : Watched C} {f : Flight C} {env : Env}
    (hp : p ∈ (v.spaces.world.clients c).blocked) (hf : v.spaces.world.net p.request = some f) :
    v.note c a (.serve p.request env) =
      stands a (v.spaces.world.servers f.sent.host) env f.sent.request := by
  have hblocked : (v.spaces.world.clients c).blocked = some p := hp
  simp [Watched.note, hblocked, hf]

/-- The seek request of a tracked descriptor. -/
theorem started_seek {cl cl' : Client} {cell : Addr} {s : Sent} {offset whence : ℤ}
    (h : Tracks cfg cl fd a path)
    (hs : Started cfg cl cell (.lseek fd offset whence) cl' (some s)) :
    s = seekSent cfg path a offset whence := by
  cases hs with
  | transferSent _ _ _ _ _ _ _ hk => cases hk
  | lseekSent p _ _ _ cache hp =>
    obtain rfl : path = p := Option.some.inj (h.tracked.symm.trans hp)
    rw [seekSent, PMap.index_of_some h.redir]

omit [DecidableEq C] in
theorem complete_readRet {cl cl' : Client} {out : ℤ} {cb : Callback} (hcb : cb ≠ .seekCb)
    (h : cl.complete out cb = .ok cl') : cl'.readRet = cl.readRet := by
  cases cb with
  | seekCb => exact absurd rfl hcb
  | openCb j cell =>
    cases h
    rfl
  | readCb buf cell =>
    cases h
    rfl
  | none =>
    cases h
    rfl

/-- A seek in progress is answered by its server, from where the server descriptor stands. -/
theorem steps_seekWaits {v : Watched C} (hcons : Consistent y cfg v.spaces.world)
    (hsteady : Steady cfg v.spaces.world) (hopen : Opened cfg v.spaces.world c fd a path)
    (hb : cfg.files path = some b) (h : ∀ p ∈ (v.spaces.world.clients c).blocked,
      SeekWaits cfg v.spaces.world c fd a path b v.stood p)
    (hs : Steps cfg v.spaces.world l w') (hp : p ∈ (w'.clients c).blocked) :
    SeekWaits cfg w' c fd a path b (v.note c a l) p := by
  cases steps_pends hs hp with
  | blocks k cell cl s w' he hstart hcb hnext hnet hcl =>
    subst he
    rintro offset whence rfl
    rw [hnet]
    exact ⟨⟨rfl, started_seek hopen.client hstart⟩, trivial⟩
  | aside l w' hl hserve hold hnext hnet hcl =>
    rw [note_of_blocked hold hserve hl.2]
    exact (h p hold).kept (hnet (hcons.calls c p hold).issued) (by rw [hcl])
  | served env f hold hf hst =>
    intro offset whence hk
    have hstands := h p hold offset whence hk
    rw [hf] at hstands
    obtain ⟨⟨hclient, hsent⟩, -⟩ := hstands
    have hhost : f.sent.host = cfg.host path := by rw [hsent, seekSent]
    obtain ⟨n, hn, srv', hsrv⟩ := seek_handled (hhost ▸ hopen.server) hb (int32 offset) whence env
    have hreq : f.sent.request = .seekRpc ⟨a, int32 offset, whence⟩ := by rw [hsent, seekSent]
    rw [note_served hold hf, hreq, hsrv]
    have hstood : n ∈ stands a (v.spaces.world.servers f.sent.host) env
        (.seekRpc ⟨a, int32 offset, whence⟩) := by
      simp [stands, OwnFile.OwnRead, hn]
    simp only [handled, setServer, setFlight, noteServed_net, PMap.insert_apply, ↓reduceIte]
    exact ⟨⟨hclient, hsent⟩, n, hstood, rfl⟩
  | pushed id f bytes buf cell hold hf hst hcb =>
    rw [note_of_blocked hold (by simp) (by simp)]
    by_cases hid : p.request = id
    · subst hid
      intro offset whence hk
      have hstands := h p hold offset whence hk
      rw [hf] at hstands
      obtain ⟨⟨-, hsent⟩, -⟩ := hstands
      rw [hsent] at hcb
      cases hcb
    · refine (h p hold).kept (by simp [setClient, setFlight, hid]) ?_
      by_cases hcl : c = f.client
      · simp [setClient, setFlight, hcl]
      · simp [setClient, setFlight, hcl]
  | replied id f out cl hold hf hst hc =>
    rw [note_of_blocked hold (by simp) (by simp)]
    by_cases hid : p.request = id
    · subst hid
      intro offset whence hk
      have hstands := h p hold offset whence hk
      rw [hf] at hstands
      obtain ⟨⟨rfl, hsent⟩, hout⟩ := hstands
      simp only [hst] at hout
      have hnet : (((v.spaces.world.setClient f.client cl).dropFlight p.request).noteReply p.request
          f.client f.sent.callback).net p.request = none := by simp [setClient, dropFlight]
      rw [hsent] at hc
      cases hc
      rw [hnet]
      simpa [SeekStands, setClient, dropFlight, ftcSeekCb] using hout
    · intro offset whence hk
      refine (h p hold).kept (by simp [setClient, dropFlight, hid]) ?_ offset whence hk
      by_cases hcl : c = f.client
      · subst hcl
        -- the one seek request of a client is that of the call it waits in
        have hcb : f.sent.callback ≠ .seekCb := fun hcb ↦ by
          obtain ⟨q, hq, -, hreq, -⟩ := (hsteady.seeks f.client).flight id ⟨f, hf, rfl, hcb⟩
          exact hid (Option.mem_unique hold hq ▸ hreq)
        simpa [setClient, dropFlight] using complete_readRet hcb hc
      · simp [setClient, dropFlight, hcl]

/-- A read gets the bytes of the file at the offset where the server descriptor stood. -/
def ReadFrom (fd : Fd) (b : Bytes) (stood : Option ℕ) (k : Call) (bytes : Bytes) : Prop :=
  ∀ buf count, k = .read fd buf count → ∀ n ∈ stood, bytes = slice b n count

theorem reads_served {v : Watched C} {promise : Call → Bytes → Prop}
    (h : Keeps cfg v.spaces.world c fd a path promise) (hb : cfg.files path = some b) :
    Serves cfg v.spaces.world c fd a path (ReadFrom fd b (v.note c a l)) l := by
  rintro p hp env rfl buf count offset hk hc srv bytes hpush buf' count' hcall n hn
  obtain ⟨rfl, rfl, rfl⟩ : buf' = buf ∧ count' = count ∧ -1 = offset := by
    simpa [hcall, Call.transfer] using hk
  have hstands := (h.waits p hp).transfer buf' count' (-1) hk hc
  cases hf : v.spaces.world.net p.request with
  | none =>
    have hblocked : (v.spaces.world.clients c).blocked = some p := hp
    simp [Watched.note, hblocked, hf] at hn
  | some f =>
    rw [hf] at hstands
    obtain ⟨⟨-, hsent, -⟩, -⟩ := hstands
    rw [note_served hp hf, hsent] at hn
    simp only [transferSent, stands, Option.mem_def] at hn
    obtain ⟨hown, hpos⟩ := Option.ite_none_right_eq_some.mp hn
    obtain ⟨m, hm, hbytes⟩ := pushed_slice h.opened.server hb hc hown hpush
    obtain rfl : m = n := Option.some.inj (hm.symm.trans hpos)
    simpa using hbytes

omit [DecidableEq C] in
/-- A read gives the bytes at the offset of the description that answers it. -/
theorem finish_read {cl : Client} (h : Tracks cfg cl fd a path) (hb : cfg.files path = some b)
    {buf : Addr} {count : ℕ} (hc : count < 2 ^ 31) {out : ℤ} {n : ℕ}
    (hout : Brought cl.memory buf count (ReadFrom fd b stood (.read fd buf count)) out)
    (hpos : (if out < 0 then (cl.kernel fd).map Description.pos else stood) = some n) :
    (cl.finishCall cfg (.read fd buf count) out).2 =
      ⟨(slice b n count).length, slice b n count⟩ := by
  rcases hout with ⟨hlow, hneg⟩ | ⟨bytes, hbytes, hlen, rfl, hload⟩
  · obtain ⟨⟨q, m⟩, hd, rfl⟩ := Option.map_eq_some_iff.mp h.here
    obtain rfl : m = n := by simpa [hneg, hd] using hpos
    simp only [finishCall, finishRead_here hd hb buf hc hlow hneg]
  · rw [if_neg (by omega)] at hpos
    obtain rfl := hbytes buf count rfl n hpos
    simp only [finishCall, finishRead_remote fd count (Nat.lt_of_le_of_lt hlen hc) hload]

omit [DecidableEq C] in
/-- A seek that sees its answer has none in flight. -/
theorem replied_sought (hsteady : Steady cfg w) (h : SeekWaits cfg w c fd a path b stood p)
    {offset whence : ℤ} (hk : p.call = .lseek fd offset whence)
    (hr : (w.clients c).replied p = true) :
    Sought b stood offset whence ((w.clients c).remoteValue p) := by
  have hs := h offset whence hk
  simp only [replied, hk, decide_eq_true_eq] at hr
  simp only [remoteValue, hk]
  cases hf : w.net p.request with
  | none =>
    rw [hf] at hs
    exact hs
  | some f =>
    rw [hf] at hs
    obtain ⟨⟨hclient, hsent⟩, -⟩ := hs
    obtain ⟨q, -, -, -, hdone⟩ := (hsteady.seeks c).flight p.request
      ⟨f, hf, hclient, by rw [hsent, seekSent]⟩
    omega

section Result

variable {t₀ : Table Path} {xs : List (Call × Result)}

omit [DecidableEq C] in
theorem read_follows {cl : Client} (h : Tracks cfg cl fd a path) (hb : cfg.files path = some b)
    (hf : Follows cfg fd path t₀ xs) {buf : Addr} {count : ℕ}
    (hin : InRange cfg (after (posix cfg) t₀ xs) (.read fd buf count)) {out : ℤ}
    (hout : Brought cl.memory buf count (ReadFrom fd b stood (.read fd buf count)) out)
    (hpos : Finds fd (position fd t₀ xs) (.read fd buf count,
      if out < 0 then (cl.kernel fd).map Description.pos else stood)) :
    Follows cfg fd path t₀
      (xs ++ [(.read fd buf count, (cl.finishCall cfg (.read fd buf count) out).2)]) := by
  rw [finish_read h hb hin.2 hout (hpos rfl)]
  exact hf.read hb buf count rfl

omit [DecidableEq C] in
theorem failed_follows {cl : Client} (h : Tracks cfg cl fd a path) (hb : cfg.files path = some b)
    (hf : Follows cfg fd path t₀ xs) {buf : Addr} {count : ℕ}
    (hin : InRange cfg (after (posix cfg) t₀ xs) (.read fd buf count))
    (hpos : Finds fd (position fd t₀ xs)
      (.read fd buf count, (cl.kernel fd).map Description.pos)) :
    Follows cfg fd path t₀
      (xs ++ [(.read fd buf count, (cl.finishCall cfg (.read fd buf count) (-1)).2)]) := by
  have hout : Brought cl.memory buf count (ReadFrom fd b none (.read fd buf count)) (-1) :=
    .inl ⟨by omega, by omega⟩
  exact read_follows h hb hf hin hout (by simpa using hpos)

omit [DecidableEq C] in
theorem lseek_follows {cl : Client} (h : Tracks cfg cl fd a path) (hb : cfg.files path = some b)
    (hf : Follows cfg fd path t₀ xs) {offset whence out : ℤ}
    (hin : InRange cfg (after (posix cfg) t₀ xs) (.lseek fd offset whence))
    (hout : Sought b stood offset whence out)
    (hpos : Finds fd (position fd t₀ xs) (.lseek fd offset whence, stood)) :
    Follows cfg fd path t₀
      (xs ++ [(.lseek fd offset whence, (cl.finishCall cfg (.lseek fd offset whence) out).2)]) := by
  obtain ⟨-, hoff, hlt⟩ := hin
  obtain ⟨n, hn, rfl⟩ := hout
  rw [finishCall, finishLseek_tracked h.tracked, int32_of_range hoff.1 hoff.2]
  -- the server seeks to where the reference does
  have htarget : seekTarget b.length n offset whence =
      seekTarget b.length (position fd t₀ xs) offset whence :=
    seekTarget_congr fun hw ↦ Option.some.inj (hn.symm.trans (hpos rfl hw))
  obtain ⟨hmove, -⟩ := lseek_of_open hf.stands hb offset whence
  rw [hmove] at hlt
  have hge := offsetReturned_ge (seekTarget b.length (position fd t₀ xs) offset whence)
  rw [htarget]
  exact hf.lseek hb offset whence (int32_of_range (by omega) hlt)

end Result

omit [DecidableEq C] in
theorem calls_concat {k : ℕ} {x : Call × Result} (hk : k ≤ (w.hist.trace c).length)
    (h : w'.hist.trace c = w.hist.trace c ++ [x]) :
    calls fd k w' c = calls fd k w c ++ if sequential fd x.1 then [x] else [] := by
  rw [calls, h, List.drop_append_of_le_length hk, List.filter_append, calls]
  cases hx : sequential fd x.1 <;> simp [hx]

theorem sequential_cases {k : Call} (h : sequential fd k = true) :
    (∃ buf count, k = .read fd buf count) ∨ ∃ offset whence, k = .lseek fd offset whence := by
  cases k with
  | read j buf count =>
    obtain rfl : j = fd := by simpa [sequential] using h
    exact .inl ⟨buf, count, rfl⟩
  | lseek j offset whence =>
    obtain rfl : j = fd := by simpa [sequential] using h
    exact .inr ⟨offset, whence, rfl⟩
  | openFile => cases h
  | pread => cases h
  | close => cases h

/-- What holds throughout a run whose calls find the position. -/
structure Kept (y : Layout) (cfg : Config) (c : C) (fd a : Fd) (path : Path) (b : Bytes) (k : ℕ)
    (t₀ : Table Path) (v : Watched C) : Prop where
  consistent : Consistent y cfg v.spaces.world
  steady : Steady cfg v.spaces.world
  keeps : Keeps cfg v.spaces.world c fd a path (ReadFrom fd b v.stood)
  seeks : ∀ p ∈ (v.spaces.world.clients c).blocked,
    SeekWaits cfg v.spaces.world c fd a path b v.stood p
  made : k ≤ (v.spaces.world.hist.trace c).length
  follows : Follows cfg fd path t₀ (calls fd k v.spaces.world c)

section Step

variable {k : ℕ} {t₀ : Table Path} {v : Watched C}

/-- A read that is not sent. -/
theorem atOnce_follows (h : Kept y cfg c fd a path b k t₀ v) (hb : cfg.files path = some b)
    {j : Call} {cell : Addr} {cl : Client}
    (hstart : Started cfg (v.spaces.world.clients c) cell j cl none) (hj : sequential fd j = true)
    (hl : ∀ x ∈ v.ends cfg c fd (.call c j cell),
      Placed cfg fd t₀ (calls fd k v.spaces.world c) x) :
    Follows cfg fd path t₀
      (calls fd k v.spaces.world c ++ [(j, (cl.finishCall cfg j (-1)).2)]) := by
  have htracks := h.keeps.opened.client
  rcases sequential_cases hj with ⟨buf, count, rfl⟩ | ⟨offset, whence, rfl⟩
  · cases hstart with
    | transferLocal _ _ _ _ _ hk hover =>
      obtain ⟨rfl, -⟩ := by simpa [Call.transfer] using hk
      have hends : (.read fd buf count, ((v.spaces.world.clients c).kernel fd).map
          Description.pos) ∈ v.ends cfg c fd (.call c (.read fd buf count) cell) := by
        simpa [Watched.ends, Call.transfer] using hover
      obtain ⟨hin, hfinds⟩ := hl _ hends
      exact failed_follows htracks hb h.follows (hin hj) hfinds
  · cases hstart with
    | transferLocal _ _ _ _ _ hk => cases hk
    | lseekLocal _ _ _ hp => simp [htracks.tracked] at hp

theorem woken_follows (h : Kept y cfg c fd a path b k t₀ v) (hb : cfg.files path = some b)
    (hp : p ∈ (v.spaces.world.clients c).blocked)
    (hr : (v.spaces.world.clients c).replied p = true) (hj : sequential fd p.call = true)
    (hl : ∀ x ∈ v.ends cfg c fd (.wake c),
      Placed cfg fd t₀ (calls fd k v.spaces.world c) x) :
    Follows cfg fd path t₀ (calls fd k v.spaces.world c ++
      [(p.call, ({ v.spaces.world.clients c with blocked := none }.finishCall cfg p.call
        ((v.spaces.world.clients c).remoteValue p)).2)]) := by
  have hidle : Tracks cfg { v.spaces.world.clients c with blocked := none } fd a path :=
    h.keeps.opened.client.congr rfl rfl rfl rfl
  have hblocked : (v.spaces.world.clients c).blocked = some p := hp
  have hends : (p.call, if p.call.transfer.isSome ∧
      (v.spaces.world.clients c).remoteValue p < 0 then
        ((v.spaces.world.clients c).kernel fd).map Description.pos else v.stood) ∈
      v.ends cfg c fd (.wake c) := by
    simp [Watched.ends, hblocked]
  obtain ⟨hin, hfinds⟩ := hl _ hends
  have hin := hin hj
  have hcalled := sequential_cases hj
  obtain ⟨j, request, host, cell⟩ := p
  simp only at hcalled
  rcases hcalled with ⟨buf, count, rfl⟩ | ⟨offset, whence, rfl⟩
  · exact read_follows hidle hb h.follows hin (replied_brought (h.keeps.waits _ hp) rfl hin.2 hr)
      (by simpa [Call.transfer] using hfinds)
  · exact lseek_follows hidle hb h.follows hin
      (replied_sought h.steady (h.seeks _ hp) rfl hr) (by simpa [Call.transfer] using hfinds)

theorem givenUp_follows (h : Kept y cfg c fd a path b k t₀ v) (hb : cfg.files path = some b)
    (hp : p ∈ (v.spaces.world.clients c).blocked) (ht : timed p.call = true)
    (hj : sequential fd p.call = true)
    (hl : ∀ x ∈ v.ends cfg c fd (.giveUp c),
      Placed cfg fd t₀ (calls fd k v.spaces.world c) x) :
    Follows cfg fd path t₀ (calls fd k v.spaces.world c ++
      [(p.call, (({ v.spaces.world.clients c with blocked := none }.timeOut p.host).finishCall cfg
        p.call (-1)).2)]) := by
  have hidle : Tracks cfg ({ v.spaces.world.clients c with blocked := none }.timeOut p.host)
      fd a path := h.keeps.opened.client.congr rfl rfl rfl rfl
  have hblocked : (v.spaces.world.clients c).blocked = some p := hp
  have hends : (p.call, ((v.spaces.world.clients c).kernel fd).map Description.pos) ∈
      v.ends cfg c fd (.giveUp c) := by
    simp [Watched.ends, hblocked]
  obtain ⟨hin, hfinds⟩ := hl _ hends
  have hcalled := sequential_cases hj
  obtain ⟨j, request, host, cell⟩ := p
  simp only at hcalled
  rcases hcalled with ⟨buf, count, rfl⟩ | ⟨offset, whence, rfl⟩
  · exact failed_follows hidle hb h.follows (hin hj) hfinds
  · cases ht

/-- A call that ends goes on with the history of one description. -/
theorem steps_follows (h : Kept y cfg c fd a path b k t₀ v) (hb : cfg.files path = some b)
    (hl : ∀ x ∈ v.ends cfg c fd l,
      Placed cfg fd t₀ (calls fd k v.spaces.world c) x)
    (hs : Steps cfg v.spaces.world l w') :
    k ≤ (w'.hist.trace c).length ∧ Follows cfg fd path t₀ (calls fd k w' c) := by
  obtain ⟨xs, htrace, hreturns⟩ := steps_returns hs c
  refine ⟨by simpa [htrace] using Nat.le_add_right_of_le h.made, ?_⟩
  have hone {j : Call} {r : Result} (hx : xs = [(j, r)]) (hj : sequential fd j = true →
      Follows cfg fd path t₀ (calls fd k v.spaces.world c ++ [(j, r)])) :
      Follows cfg fd path t₀ (calls fd k w' c) := by
    rw [calls_concat h.made (hx ▸ htrace)]
    split
    case isTrue hseq => exact hj hseq
    case isFalse => simpa using h.follows
  cases hreturns with
  | aside =>
    rw [calls, htrace, List.append_nil]
    exact h.follows
  | atOnce j cell cl hstart => exact hone rfl fun hj ↦ atOnce_follows h hb hstart hj hl
  | fired j cell cl s hstart hcb =>
    -- only a close is sent without waiting
    refine hone rfl fun hj ↦ ?_
    rcases sequential_cases hj with ⟨buf, count, rfl⟩ | ⟨offset, whence, rfl⟩
    · cases hstart with
      | transferSent => cases hcb
    · cases hstart with
      | transferSent => cases hcb
      | lseekSent => cases hcb
  | woken p hp hr => exact hone rfl fun hj ↦ woken_follows h hb hp hr hj hl
  | givenUp p hp ht => exact hone rfl fun hj ↦ givenUp_follows h hb hp ht hj hl

/-- Outside the answer to its request, nothing is noted for a call in progress. -/
theorem note_aside (h : ∀ p ∈ (v.spaces.world.clients c).blocked, ∀ env, l ≠ .serve p.request env) :
    v.note c a l = v.stood ∨ v.note c a l = none := by
  cases l with
  | call c' k cell =>
    by_cases hc : c' = c
    · exact .inr (by simp [Watched.note, hc])
    · exact .inl (by simp [Watched.note, hc])
  | serve id env =>
    have hno : ¬∃ p ∈ (v.spaces.world.clients c).blocked, p.request = id := by
      rintro ⟨p, hp, rfl⟩
      exact h p hp env rfl
    exact .inl (by simp only [Watched.note, hno, ↓reduceIte])
  | push id => exact .inl rfl
  | reply id => exact .inl rfl
  | wake c' => exact .inl rfl
  | giveUp c' => exact .inl rfl
  | mover h m => exact .inl rfl
  | store c' x bytes => exact .inl rfl

theorem settle_steady (h : Steady cfg w) (hs : Steps cfg w l w') : Steady cfg (settle y w w' l) :=
  have hw := steps_steady h hs
  ⟨hw.net, fun c ↦ (hw.seeks c).congr rfl rfl fun _ ↦ .rfl, hw.pushes⟩

theorem step_kept {v' : Watched C} {m : Move C} (h : Kept y cfg c fd a path b k t₀ v)
    (hb : cfg.files path = some b) (hl : Permitted y cfg c fd a path k t₀ v m)
    (hs : v.step cfg c a y m = some v') : Kept y cfg c fd a path b k t₀ v' := by
  obtain ⟨s, hmove, rfl⟩ := Option.map_eq_some_iff.mp hs
  obtain ⟨l, w, rfl, -, hw, rfl⟩ | ⟨hm, he⟩ := StackFrames.step_cases hmove
  · obtain ⟨hundisturbed, hends⟩ := hl l rfl
    obtain ⟨hmade, hfollows⟩ := steps_follows h hb hends (step_steps hw)
    refine ⟨step_consistent h.consistent hmove, settle_steady h.steady (step_steps hw), ?_, ?_,
      hmade, hfollows⟩
    · refine settle_keeps h.consistent h.keeps hundisturbed hw (fun haside j bytes hj ↦ ?_)
        (reads_served h.keeps hb)
      rcases note_aside (a := a) haside with hnote | hnote
      · rwa [Move.label, Option.elim, hnote]
      · intro buf count hk n hn
        simp [Move.label, hnote] at hn
    · intro p hp
      have hp : p ∈ (w.clients c).blocked := hp
      exact (steps_seekWaits h.consistent h.steady h.keeps.opened hb h.seeks (step_steps hw)
        hp).kept rfl rfl
  · obtain ⟨hcons, hsteady, hkeeps, hseeks, hmade, hfollows⟩ := h
    constructor <;> simpa only [he, hm, Option.elim]

end Step

theorem reach_steady {job : Job} {ok : Spaces C → Move C → Prop} {s : Spaces C}
    (h : Reach (Spaces.step y job.cfg) ok (StackFrames.start y job C) s) :
    Steady job.cfg s.world := by
  refine h.invariant (fun s ↦ Steady job.cfg s.world) ?_ fun s m s' hs _ hm ↦ ?_
  · have hstart := start_steady job C
    exact ⟨hstart.net, fun c ↦ (hstart.seeks c).congr rfl rfl fun _ ↦ .rfl, hstart.pushes⟩
  · obtain ⟨l, w, rfl, -, hw, rfl⟩ | ⟨-, he⟩ := StackFrames.step_cases hm
    · exact settle_steady hs (step_steps hw)
    · rwa [he]

end FTCache.Failover
