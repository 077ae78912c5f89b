import FTCache.Client
import FTCache.DataMover

namespace FTCache.Server

open Posix Words Client

variable {srv : Server} {env : Env} {inp : RpcIn}

theorem sysRead_open {fd : Fd} {d : Description Path} {b : Bytes} (hd : srv.fds fd = some d)
    (hb : srv.files d.file = some b) (ok : Bool) (n : ℕ) :
    srv.sysRead ok fd n = (none, srv.fds) ∨ srv.sysRead ok fd n =
      (some (slice b d.pos n), srv.fds.insert fd ⟨d.file, d.pos + (slice b d.pos n).length⟩) := by
  unfold sysRead
  split
  · exact .inr (read_of_open hd hb n)
  · exact .inl rfl

theorem sysRead_failed {ok : Bool} {fd : Fd} {n : ℕ} (h : (srv.sysRead ok fd n).1 = none) :
    (srv.sysRead ok fd n).2 = srv.fds := by
  unfold sysRead at *
  split
  case isTrue hok => exact read_failed (by simpa [hok] using h)
  case isFalse => rfl

theorem sysRead_frame (ok : Bool) (fd : Fd) (n : ℕ) {j : Fd} (hj : j ≠ fd) :
    (srv.sysRead ok fd n).2 j = srv.fds j := by
  unfold sysRead
  split
  · exact read_frame fd n hj
  · rfl

theorem sysRead_length_le {ok : Bool} {fd : Fd} {n : ℕ} {bs : Bytes}
    (h : (srv.sysRead ok fd n).1 = some bs) : bs.length ≤ n := by
  unfold sysRead at h
  split at h
  · exact read_length_le h
  · cases h

theorem sysPread_length_le {ok : Bool} {fd : Fd} {n : ℕ} {offset : ℤ} {bs : Bytes}
    (h : srv.sysPread ok fd n offset = some bs) : bs.length ≤ n := by
  unfold sysPread pread at h
  split at h
  · split at h
    · cases h
    · obtain ⟨b, -, rfl⟩ := Option.map_eq_some_iff.mp h
      exact slice_length_le ..
  · cases h

theorem startTransfer_some (hfit : size64 inp.inputVal ≤ inp.bulkSize) {bs : Bytes}
    (hlen : bs.length ≤ size64 inp.inputVal) (hsmall : size64 inp.inputVal < 2 ^ 63) :
    startTransfer srv inp (some bs) = .pushing srv bs := by
  have hsize : size64 (transferred (some bs)) = bs.length := size64_natCast (by omega)
  simp only [startTransfer]
  rw [if_pos ⟨by omega, by omega⟩]
  rfl

/-- A failed read gives -1 for a size, which no transfer accepts. -/
theorem startTransfer_none (hsmall : size64 inp.inputVal < 2 ^ 63) :
    startTransfer srv inp none = .aborted .bulkTransfer := by
  have hbig : 2 ^ 63 ≤ size64 (transferred (none : Option Bytes)) :=
    size64_of_neg (by simp) (by simp)
  simp only [startTransfer]
  rw [if_neg fun hg ↦ by omega]

theorem startTransfer_pushing {srv s : Server} {r : Option Bytes} {bytes : Bytes}
    (hsize : size64 inp.inputVal < 2 ^ 63) (h : startTransfer srv inp r = .pushing s bytes) :
    r = some bytes := by
  simp only [startTransfer] at h
  split at h
  case isTrue hg =>
    cases h
    cases r with
    | some bs => rfl
    | none =>
      -- the value -1 of a failed read is too large a transfer size
      have hbig : 2 ^ 63 ≤ size64 (-1) := size64_of_neg (by omega) (by omega)
      have hle : size64 (-1) ≤ size64 inp.inputVal := by simpa using hg.2
      omega
  case isFalse => cases h

theorem startTransfer_fds {srv srv₀ : Server} {r : Option Bytes} {j : Fd}
    (h : srv.fds j = srv₀.fds j) :
    ((startTransfer srv inp r).after srv₀).fds j = srv₀.fds j := by
  simp only [startTransfer]
  split
  · exact h
  · rfl

theorem startTransfer_not_responded (srv s : Server) (r : Option Bytes) (out : ℤ) :
    startTransfer srv inp r ≠ .responded s out := by
  simp only [startTransfer]
  split <;> simp

theorem startTransfer_running {srv₀ : Server} (hsame : srv.aborted = srv₀.aborted)
    (r : Option Bytes) : (∃ e, startTransfer srv inp r = .aborted e) ∨
      ((startTransfer srv inp r).after srv₀).aborted = srv₀.aborted := by
  simp only [startTransfer]
  split
  · exact .inr hsame
  · exact .inl ⟨_, rfl⟩

theorem after_running (srv : Server) (r : Request) (env : Env) :
    (∃ e, srv.handle r env = .aborted e) ∨
      ((srv.handle r env).after srv).aborted = srv.aborted := by
  cases r with
  | openRpc inp => exact .inr rfl
  | seekRpc inp => exact .inr rfl
  | closeRpc inp =>
    simp only [handle, ftcCloseRpcHandler]
    split
    · exact .inr rfl
    · exact .inl ⟨_, rfl⟩
  | baseRpc inp =>
    simp only [handle, ftcRpcHandler]
    split
    · split
      · exact startTransfer_running (by rfl) _
      · split
        · exact .inr rfl
        · exact startTransfer_running (by rfl) _
    · exact .inl ⟨_, rfl⟩

theorem transferIn_sizes (a fd : Fd) {count : ℕ} (offset : ℤ) (hc : count < 2 ^ 31) :
    size64 (transferIn a fd count offset).inputVal = count ∧
      (transferIn a fd count offset).bulkSize = count := by
  have hsize : size64 (count : ℤ) = count := size64_natCast (by omega)
  simp [transferIn, int32_natCast hc, hsize]

theorem ftcRpcHandler_read (henv : env.calloc = true ∧ env.firstRead = true) {a : Fd} (fd : Fd)
    {d : Description Path} {b : Bytes} (hd : srv.fds a = some d)
    (hb : srv.files d.file = some b) {count : ℕ} (hc : count < 2 ^ 31) :
    srv.ftcRpcHandler (transferIn a fd count (-1)) env = .pushing
      { srv with fds := srv.fds.insert a ⟨d.file, d.pos + (slice b d.pos count).length⟩ }
      (slice b d.pos count) := by
  obtain ⟨hsize, hbulk⟩ := transferIn_sizes a fd (-1) hc
  have hread : srv.readSequential (transferIn a fd count (-1)) env =
      (some (slice b d.pos count),
        srv.fds.insert a ⟨d.file, d.pos + (slice b d.pos count).length⟩) := by
    simp only [readSequential, sysRead, henv.2, hsize, ↓reduceIte]
    simp only [transferIn, read_of_open hd hb]
  unfold ftcRpcHandler
  rw [if_pos ⟨henv.1, by omega⟩,
    if_pos (show (transferIn a fd count (-1)).offset = -1 from rfl), hread]
  exact startTransfer_some (by omega) (by rw [hsize]; exact slice_length_le ..) (by omega)

theorem ftcRpcHandler_pread (henv : env.calloc = true ∧ env.firstRead = true) {a : Fd} (fd : Fd)
    {d : Description Path} {b : Bytes} (hd : srv.fds a = some d)
    (hb : srv.files d.file = some b) {count : ℕ} (hc : count < 2 ^ 31) {offset : ℤ}
    (ho : 0 ≤ offset) :
    srv.ftcRpcHandler (transferIn a fd count offset) env =
      .pushing srv (slice b offset.toNat count) := by
  obtain ⟨hsize, hbulk⟩ := transferIn_sizes a fd offset hc
  have hread : srv.sysPread env.firstRead (transferIn a fd count offset).accessfd count
      (transferIn a fd count offset).offset = some (slice b offset.toNat count) := by
    simp [sysPread, transferIn, henv.2, pread_of_open hd hb _ ho]
  unfold ftcRpcHandler
  rw [if_pos ⟨henv.1, by omega⟩, if_neg (by simp only [transferIn]; omega), hsize, hread]
  exact startTransfer_some (by omega) (by rw [hsize]; exact slice_length_le ..) (by omega)

theorem readSequential_length_le {bs : Bytes} (h : (srv.readSequential inp env).1 = some bs) :
    bs.length ≤ size64 inp.inputVal := by
  unfold readSequential at h
  split at h
  case h_1 bs' fds he =>
    obtain rfl : bs' = bs := Option.some.inj h
    exact sysRead_length_le (congrArg Prod.fst he)
  case h_2 => exact sysRead_length_le h

/-- What is pushed fits the buffer that the client has registered. -/
theorem ftcRpcHandler_fits {s : Server} {bytes : Bytes}
    (h : srv.ftcRpcHandler inp env = .pushing s bytes) : bytes.length ≤ inp.bulkSize := by
  unfold ftcRpcHandler at h
  split at h
  case isFalse => cases h
  case isTrue hg =>
    have hfits {srv' : Server} {r : Option Bytes}
        (hr : ∀ bs, r = some bs → bs.length ≤ size64 inp.inputVal)
        (hs : startTransfer srv' inp r = .pushing s bytes) : bytes.length ≤ inp.bulkSize := by
      obtain rfl := startTransfer_pushing hg.2 hs
      have hlen := hr bytes rfl
      have hsize : size64 (transferred (some bytes)) = bytes.length := size64_natCast (by omega)
      simp only [startTransfer] at hs
      split at hs
      case isTrue hle => omega
      case isFalse => cases hs
    split at h
    · exact hfits (fun bs hbs ↦ readSequential_length_le hbs) h
    · split at h
      · cases h
      case h_2 bs hbs =>
        exact hfits (fun bs' hbs' ↦ sysPread_length_le (Option.some.inj hbs' ▸ hbs)) h

theorem ftcRpcHandler_refuses {s : Server} {out : ℤ}
    (h : srv.ftcRpcHandler inp env = .responded s out) : out = -1 := by
  unfold ftcRpcHandler at h
  split at h
  · split at h
    · exact absurd h (startTransfer_not_responded _ _ _ _)
    · split at h
      · cases h
        rfl
      · exact absurd h (startTransfer_not_responded _ _ _ _)
  · cases h

end FTCache.Server
