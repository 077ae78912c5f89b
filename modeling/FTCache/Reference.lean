import FTCache.Library.Replay
import FTCache.Ownership

namespace FTCache.Reference

open Runs Posix Words Replay World Client Protocol

variable {C : Type} {cfg : Config}

/-- The calls as one process makes them on its own file system. -/
def posix (cfg : Config) (t : Table Path) : Call → Table Path × Result
  | .openFile path _ fd =>
    match cfg.canonical path with
    | none => (t, ⟨-1, []⟩)
    | some p => if Grants cfg.files t p fd then (t.insert fd ⟨p, 0⟩, ⟨fd, []⟩) else (t, ⟨-1, []⟩)
  | .read fd _ count =>
    let r := read cfg.files t fd count
    (r.2, ⟨transferred r.1, r.1.getD []⟩)
  | .pread fd _ count offset =>
    let r := pread cfg.files t fd count offset
    (t, ⟨transferred r, r.getD []⟩)
  | .lseek fd offset whence =>
    let r := lseek cfg.files t fd offset whence
    (r.2, ⟨offsetReturned r.1, []⟩)
  | .close fd => (t.erase fd, ⟨if (t fd).isSome then 0 else -1, []⟩)

/-- What the descriptors of a client would be, had it made its calls locally. -/
def reference (cfg : Config) (w : World C) (c : C) : Table Path :=
  after (posix cfg) (fun _ ↦ none) (w.hist.trace c)

/-- The ranges within which calls are compared. -/
def InRange (cfg : Config) (t : Table Path) : Call → Prop
  | .openFile _ _ _ => True
  | .read _ _ count => 1 ≤ count ∧ count < 2 ^ 31
  | .pread _ _ count offset => (1 ≤ count ∧ count < 2 ^ 31) ∧ 0 ≤ offset
  | .lseek fd offset whence => (whence = 0 ∨ whence = 1 ∨ whence = 2) ∧
      (-2 ^ 31 ≤ offset ∧ offset < 2 ^ 31) ∧
      offsetReturned (lseek cfg.files t fd offset whence).1 < 2 ^ 31
  | .close _ => True

instance (cfg : Config) (t : Table Path) : (k : Call) → Decidable (InRange cfg t k)
  | .openFile _ _ _ => isTrue trivial
  | .read _ _ count => inferInstanceAs (Decidable (1 ≤ count ∧ count < 2 ^ 31))
  | .pread _ _ count offset =>
    inferInstanceAs (Decidable ((1 ≤ count ∧ count < 2 ^ 31) ∧ 0 ≤ offset))
  | .lseek fd offset whence => inferInstanceAs (Decidable ((whence = 0 ∨ whence = 1 ∨ whence = 2) ∧
      (-2 ^ 31 ≤ offset ∧ offset < 2 ^ 31) ∧
      offsetReturned (lseek cfg.files t fd offset whence).1 < 2 ^ 31))
  | .close _ => isTrue trivial

/-- What the reference says about a client's descriptors: a tracked one stands
where its server descriptor stands, any other is the kernel's own. -/
structure Mirror (cfg : Config) (servers : Host → Server) (cl : Client) (t : Table Path) :
    Prop where
  tracked : ∀ fd path s, cl.fdMap fd = some path → cl.fdRedirMap fd = some s →
    ∃ d, (servers (cfg.host path)).fds s = some d ∧ t fd = some ⟨path, d.pos⟩
  untracked : ∀ fd, cl.fdMap fd = none → t fd = cl.kernel fd

theorem Mirror.congr {servers : Host → Server} {cl cl' : Client} {t : Table Path}
    (h : Mirror cfg servers cl t) (hm : cl'.fdMap = cl.fdMap)
    (hr : cl'.fdRedirMap = cl.fdRedirMap) (hk : cl'.kernel = cl.kernel) :
    Mirror cfg servers cl' t :=
  ⟨by simpa only [hm, hr] using h.tracked, by simpa only [hm, hk] using h.untracked⟩

/-- The value that is on its way, or has arrived, gives the call its result. -/
def Value (cl : Client) (k : Call) (out : ℤ) (r : Result) : Prop :=
  match k with
  | .read _ buf _ => (out = r.ret ∧ 0 ≤ out ∧ out < 2 ^ 31) ∧ cl.memory.load buf out.toNat = r.bytes
  | .pread _ buf _ _ =>
    (out = r.ret ∧ 0 ≤ out ∧ out < 2 ^ 31) ∧ cl.memory.load buf out.toNat = r.bytes
  | .lseek _ _ _ => out = r.ret
  | _ => True

theorem value_transfer {cl : Client} {k : Call} {fd : Fd} {buf : Addr} {count : ℕ} {offset : ℤ}
    (hk : k.transfer = some (fd, buf, count, offset)) {out : ℤ} {r : Result} :
    Value cl k out r ↔
      (out = r.ret ∧ 0 ≤ out ∧ out < 2 ^ 31) ∧ cl.memory.load buf out.toNat = r.bytes := by
  cases k <;> simp_all [Call.transfer, Value]

theorem Value.congr {cl cl' : Client} {k : Call} {out : ℤ} {r : Result} (h : Value cl k out r)
    (hm : cl'.memory = cl.memory) : Value cl' k out r := by
  cases k with
  | read fd buf count => simpa only [Value, hm] using h
  | pread fd buf count offset => simpa only [Value, hm] using h
  | lseek fd offset whence => exact h
  | openFile path flags fd => trivial
  | close fd => trivial

/-- How a blocked call stands at each stage of its request. Once the server has
handled it, the descriptors are those after the call. -/
def Stands (cfg : Config) (servers : Host → Server) (cl : Client) (t : Table Path) (p : Pending) :
    Stage → Prop
  | .request => Mirror cfg servers cl t
  | .push bytes => Mirror cfg servers cl (posix cfg t p.call).1 ∧
      (posix cfg t p.call).2 = ⟨bytes.length, bytes⟩ ∧ bytes.length < 2 ^ 31 ∧
      p.call.transfer.isSome
  | .reply out => Mirror cfg servers cl (posix cfg t p.call).1 ∧
      Value cl p.call out (posix cfg t p.call).2 ∧
      ∀ fd path, opens p.call fd → cl.fdMap fd = some path →
        ∃ q, (servers (cfg.host path)).fds out = some ⟨q, 0⟩

/-- A call that has started is one the reference can follow. -/
structure Begun (cfg : Config) (cl : Client) (t : Table Path) (k : Call) : Prop where
  inRange : InRange cfg t k
  opened : ∀ fd, opens k fd → ∃ q, cl.fdMap fd = some q ∧
    posix cfg t k = (t.insert fd ⟨q, 0⟩, ⟨fd, []⟩)

/-- Client `c` has had the results of a local process, and is about to have the next. -/
structure Synced (cfg : Config) (w : World C) (c : C) : Prop where
  agrees : Agrees (posix cfg) (fun _ ↦ none) (w.hist.trace c)
  idle : (w.clients c).blocked = none → Mirror cfg w.servers (w.clients c) (reference cfg w c)
  begun : ∀ p, (w.clients c).blocked = some p →
    Begun cfg (w.clients c) (reference cfg w c) p.call
  awaiting : ∀ p f, Awaiting cfg w.net c (w.clients c) p f →
    Stands cfg w.servers (w.clients c) (reference cfg w c) p f.stage
  answered : ∀ p, (w.clients c).blocked = some p → (w.clients c).replied p = true →
    Mirror cfg w.servers (w.clients c) (posix cfg (reference cfg w c) p.call).1 ∧
      Value (w.clients c) p.call ((w.clients c).remoteValue p)
        (posix cfg (reference cfg w c) p.call).2

theorem posix_open {t : Table Path} {path p : Path} {flags : BitVec 32} {fd : Fd}
    (hp : cfg.canonical path = some p) (hg : Grants cfg.files t p fd) :
    posix cfg t (.openFile path flags fd) = (t.insert fd ⟨p, 0⟩, ⟨fd, []⟩) := by
  simp [posix, hp, hg]

theorem posix_read {t : Table Path} {fd : Fd} {path : Path} {b : Bytes} {n : ℕ}
    (ht : t fd = some ⟨path, n⟩) (hb : cfg.files path = some b) (buf : Addr) (count : ℕ) :
    posix cfg t (.read fd buf count) = (t.insert fd ⟨path, n + (slice b n count).length⟩,
      ⟨(slice b n count).length, slice b n count⟩) := by
  simp [posix, read_of_open ht hb]

theorem posix_lseek {t : Table Path} {fd : Fd} {path : Path} {b : Bytes} {n : ℕ}
    (ht : t fd = some ⟨path, n⟩) (hb : cfg.files path = some b) (offset whence : ℤ) :
    ∃ t', posix cfg t (.lseek fd offset whence) =
        (t', ⟨offsetReturned (seekTarget b.length n offset whence), []⟩) ∧
      t' fd = some ⟨path, (seekTarget b.length n offset whence).getD n⟩ := by
  obtain ⟨hout, hmoved⟩ := lseek_of_open ht hb offset whence
  exact ⟨_, by simp only [posix, hout], hmoved⟩

theorem reference_congr (cfg : Config) {w w' : World C} {c : C}
    (h : w'.hist.trace c = w.hist.trace c) : reference cfg w' c = reference cfg w c := by
  rw [reference, h, reference]

theorem Synced.of_idle {w : World C} {c : C} (hb : (w.clients c).blocked = none)
    (ha : Agrees (posix cfg) (fun _ ↦ none) (w.hist.trace c))
    (hm : Mirror cfg w.servers (w.clients c) (reference cfg w c)) : Synced cfg w c :=
  ⟨ha, fun _ ↦ hm, by simp [hb], fun p f h ↦ absurd h.blocked (by simp [hb]),
    by simp [hb]⟩

theorem Synced.of_awaiting {w : World C} {c : C} {p : Pending} {f : Flight C}
    (h : Awaiting cfg w.net c (w.clients c) p f)
    (ha : Agrees (posix cfg) (fun _ ↦ none) (w.hist.trace c))
    (hbegun : Begun cfg (w.clients c) (reference cfg w c) p.call)
    (hs : Stands cfg w.servers (w.clients c) (reference cfg w c) p f.stage) : Synced cfg w c := by
  have hp {q : Pending} (hq : (w.clients c).blocked = some q) : p = q :=
    Option.some.inj (h.blocked.symm.trans hq)
  refine ⟨ha, by simp [h.blocked], fun q hq ↦ hp hq ▸ hbegun, fun q g hg ↦ ?_, fun q hq hr ↦ ?_⟩
  · obtain rfl := hp hg.blocked
    obtain rfl : f = g := Option.some.inj (h.waited.1.symm.trans hg.waited.1)
    exact hs
  · obtain rfl := hp hq
    simp [h.silent] at hr

theorem Synced.of_answered {w : World C} {c : C} {p : Pending}
    (hb : (w.clients c).blocked = some p) (hr : (w.clients c).replied p = true)
    (ha : Agrees (posix cfg) (fun _ ↦ none) (w.hist.trace c))
    (hbegun : Begun cfg (w.clients c) (reference cfg w c) p.call)
    (hm : Mirror cfg w.servers (w.clients c) (posix cfg (reference cfg w c) p.call).1)
    (hv : Value (w.clients c) p.call ((w.clients c).remoteValue p)
      (posix cfg (reference cfg w c) p.call).2) : Synced cfg w c := by
  have hp {q : Pending} (hq : (w.clients c).blocked = some q) : p = q :=
    Option.some.inj (hb.symm.trans hq)
  refine ⟨ha, by simp [hb], fun q hq ↦ hp hq ▸ hbegun, fun q g hg ↦ ?_, fun q hq _ ↦ ?_⟩
  · obtain rfl := hp hg.blocked
    simp [hg.silent] at hr
  · obtain rfl := hp hq
    exact ⟨hm, hv⟩

end FTCache.Reference
