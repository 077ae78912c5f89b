import FTCache.KeptOpen
import FTCache.Reference

namespace FTCache.PreadFailover

open Runs Posix Words World Client Flights StackFrames LateMessages Descriptors NvmeCache
open Reference KeptOpen

variable {C : Type} {y : Layout} {cfg : Config} {w w' : World C} {c : C} {fd a : Fd} {path : Path}
variable {b : Bytes} {p : Pending} {l : Label C}

/-- A positional read gets the bytes of the file at its offset. -/
def AtOffset (fd : Fd) (b : Bytes) (k : Call) (bytes : Bytes) : Prop :=
  ∀ buf count offset, k = .pread fd buf count offset → 0 ≤ offset →
    bytes = slice b offset.toNat count

theorem preads_served (hback : Backs cfg (w.servers (cfg.host path)) a path)
    (hb : cfg.files path = some b) : Serves cfg w c fd a path (AtOffset fd b) l := by
  rintro p hp env rfl buf count offset hk hc srv bytes hpush buf' count' offset' hcall ho
  obtain ⟨rfl, rfl, rfl⟩ : buf' = buf ∧ count' = count ∧ offset' = offset := by
    simpa [hcall, Call.transfer] using hk
  have hoff : (transferIn a fd count' offset').offset ≠ -1 := by
    simp only [transferIn]
    omega
  have hown : OwnFile.OwnRead (w.servers (cfg.host path)) env
      (.baseRpc (transferIn a fd count' offset')) := fun he ↦ absurd he hoff
  obtain ⟨n, -, hbytes⟩ := pushed_slice hback hb hc hown hpush
  rwa [if_neg (by omega)] at hbytes

theorem posix_pread {t : Table Path} (ht : (t fd).map Description.file = some path)
    (hb : cfg.files path = some b) (buf : Addr) (count : ℕ) {offset : ℤ} (ho : 0 ≤ offset) :
    (posix cfg t (.pread fd buf count offset)).2 =
      ⟨(slice b offset.toNat count).length, slice b offset.toNat count⟩ := by
  obtain ⟨⟨q, n⟩, hd, rfl⟩ := Option.map_eq_some_iff.mp ht
  simp [posix, pread_of_open hd hb count ho]

theorem finish_pread {cl : Client} (h : Tracks cfg cl fd a path) (hb : cfg.files path = some b)
    {buf : Addr} {count : ℕ} {offset out : ℤ} (ho : 0 ≤ offset)
    (hout : Brought cl.memory buf count (AtOffset fd b (.pread fd buf count offset)) out) :
    (cl.finishCall cfg (.pread fd buf count offset) out).2 =
      ⟨(slice b offset.toNat count).length, slice b offset.toNat count⟩ := by
  obtain ⟨⟨q, n⟩, hd, rfl⟩ := Option.map_eq_some_iff.mp h.here
  rcases hout with ⟨-, hneg⟩ | ⟨bytes, hbytes, -, rfl, hload⟩
  · simp [finishCall, finishPread, hneg, realPread, pread_of_open hd hb count ho, transferResult]
  · obtain rfl := hbytes buf count offset rfl ho
    simp [finishCall, finishPread, show ¬((slice b offset.toNat count).length : ℤ) < 0 by omega,
      transferResult, hload]

/-- A positional read of `fd` within the ranges has returned what it returns locally. -/
def LocalResult (cfg : Config) (t : Table Path) (fd : Fd) (x : Call × Result) : Prop :=
  ∀ buf count offset, x.1 = .pread fd buf count offset → InRange cfg t x.1 →
    x.2 = (posix cfg t x.1).2

theorem finish_local {t : Table Path} {cl : Client} {k : Call} {out : ℤ}
    (h : Tracks cfg cl fd a path) (hb : cfg.files path = some b)
    (ht : (t fd).map Description.file = some path)
    (hout : ∀ buf count offset, k = .pread fd buf count offset → count < 2 ^ 31 →
      Brought cl.memory buf count (AtOffset fd b k) out) :
    LocalResult cfg t fd (k, (cl.finishCall cfg k out).2) := by
  rintro buf count offset hk hin
  simp only at hk hin ⊢
  subst hk
  rw [posix_pread ht hb buf count hin.2]
  exact finish_pread h hb hin.2 (hout buf count offset rfl hin.1.2)

variable [DecidableEq C]

/-- A step adds to the results of `c` at most one, and that is the local one. -/
theorem steps_results {l : Label C} {t : Table Path} (h : Keeps cfg w c fd a path (AtOffset fd b))
    (hb : cfg.files path = some b) (ht : (t fd).map Description.file = some path)
    (hs : Steps cfg w l w') :
    ∃ xs, w'.hist.trace c = w.hist.trace c ++ xs ∧ ∀ x ∈ xs, LocalResult cfg t fd x := by
  obtain ⟨xs, htrace, hreturns⟩ := steps_returns hs c
  refine ⟨xs, htrace, ?_⟩
  have htracks := h.opened.client
  cases hreturns with
  | aside => simp
  | atOnce k cell cl hstart =>
    rw [List.forall_mem_singleton]
    rintro buf count offset rfl hin
    cases hstart with
    | transferLocal =>
      refine finish_local htracks hb ht (fun _ _ _ _ _ ↦ ?_) buf count offset rfl hin
      exact .inl ⟨by omega, by omega⟩
  | fired k cell cl s hstart hcb =>
    rw [List.forall_mem_singleton]
    rintro buf count offset rfl
    cases hstart with
    | transferSent => cases hcb
  | woken p hp hr =>
    have hidle : Tracks cfg { w.clients c with blocked := none } fd a path :=
      htracks.congr rfl rfl rfl rfl
    rw [List.forall_mem_singleton]
    refine finish_local hidle hb ht fun buf count offset hk hcount ↦ ?_
    exact replied_brought (h.waits p hp) (by rw [hk]; rfl) hcount hr
  | givenUp p hp hti =>
    have hidle : Tracks cfg ({ w.clients c with blocked := none }.timeOut p.host) fd a path :=
      htracks.congr rfl rfl rfl rfl
    rw [List.forall_mem_singleton]
    refine finish_local hidle hb ht fun _ _ _ _ _ ↦ ?_
    exact .inl ⟨by omega, by omega⟩

end FTCache.PreadFailover
