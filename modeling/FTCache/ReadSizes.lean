import FTCache.Sessions
import FTCache.RemoteReads

namespace FTCache.ReadSizes

open Posix Words Client Server RemoteReads

/-- A remote read of `count` bytes of `b` that has returned `ret`: the server is asked for
no more, zero stands for an empty read or the end of the file, and another value that is
not negative is a number of bytes within the count. -/
structure Carried (cfg : Config) (cl : Client) (fd : Fd) (buf : Addr) (count : ℕ) (offset : ℤ)
    (cell : Addr) (b : Bytes) (pos : ℕ) (ret : ℤ) : Prop where
  asked : ∀ cl' sent inp, cl.remoteTransfer cfg true fd buf count offset cell =
    .ok (cl', some sent) → sent.request = .baseRpc inp → size64 inp.inputVal ≤ count
  zero : ret = 0 → count = 0 ∨ ∃ n ∈ readsAt pos offset, b.length ≤ n
  counted : ret ≠ 0 → ret < 0 ∨ 1 ≤ ret ∧ ret ≤ count

/-- The low 32 bits of the count are a positive `int`; or they are zero, and so is the
count, or nothing could be read; or the count is within 2^31 of 2^64. -/
def Fits (count : ℕ) (offset : ℤ) (b : Bytes) (pos : ℕ) (granted : Bool) : Prop :=
  0 < int32 count ∨
    (int32 count = 0 ∧ (count = 0 ∨ (granted = true → ∀ n ∈ readsAt pos offset, b.length ≤ n))) ∨
    2 ^ 64 - 2 ^ 31 ≤ count

variable {cfg : Config} {cl cl' : Client} {srv srv' : Server} {fd a : Fd} {path q : Path}
variable {b : Bytes} {pos : ℕ} {buf cell : Addr} {count : ℕ} {offset ret : ℤ} {granted : Bool}

/-- A remote read counts what the server finds, or gives -1 where it has refused the
offset or stopped at its allocation. -/
theorem remoteRead_value (hr : Reads cfg cl srv fd a path q b pos)
    (h : remoteRead cfg { calloc := granted } cl srv fd buf count offset cell =
      .ok (cl', srv', ret)) :
    ((granted = true ∧ 0 ≤ int32 count) ∧
      ∃ n ∈ readsAt pos offset, ret = (slice b n (size64 (int32 count))).length) ∨
    ret = -1 ∧ (granted = true ∧ 0 ≤ int32 count → readsAt pos offset = none) := by
  obtain ⟨-, hret, -⟩ := remoteRead_sent hr h
  rw [handler_transfer hr rfl] at hret
  split at hret
  case isTrue hfree =>
    cases hat : readsAt pos offset with
    | none =>
      rw [hat] at hret
      exact .inr ⟨hret, fun _ ↦ rfl⟩
    | some n =>
      rw [hat] at hret
      have hupper := int32_upper count
      have hsize := size64_of_nonneg hfree.2 (by omega)
      have hlen := slice_length_le b n (size64 (int32 count))
      have hcounted : int32 ((slice b n (size64 (int32 count))).length : ℤ) =
          (slice b n (size64 (int32 count))).length := int32_natCast (by omega)
      exact .inl ⟨hfree, n, rfl, hret.trans hcounted⟩
  case isFalse hfree => exact .inr ⟨hret, fun hg ↦ absurd hg hfree⟩

theorem asked_iff (hr : Reads cfg cl srv fd a path q b pos) (hc : count < 2 ^ 64)
    (h : remoteRead cfg { calloc := granted } cl srv fd buf count offset cell =
      .ok (cl', srv', ret)) :
    (∀ cl' sent inp, cl.remoteTransfer cfg true fd buf count offset cell = .ok (cl', some sent) →
        sent.request = .baseRpc inp → size64 inp.inputVal ≤ count) ↔
      0 ≤ int32 count ∨ 2 ^ 64 - 2 ^ 31 ≤ count := by
  rw [← size64_int32_le_iff hc]
  constructor
  · intro hasked
    unfold remoteRead at h
    split at h
    · cases h
    case h_2 cl₁ heq =>
      obtain ⟨x, hx, -⟩ := transfer_requested hr heq
      cases hx
    case h_3 cl₁ sent heq =>
      obtain ⟨x, hx, hreq⟩ := transfer_requested hr heq
      cases hx
      exact hasked cl₁ sent _ heq hreq
  · intro hle cl₁ sent inp heq hinp
    obtain ⟨x, hx, hreq⟩ := transfer_requested hr heq
    cases hx
    cases hinp.symm.trans hreq
    exact hle

/-- A read size reaches the server unchanged, or is refused, exactly for the counts that
fit. -/
theorem read_size_carried (hr : Reads cfg cl srv fd a path q b pos) (hc : count < 2 ^ 64)
    (h : remoteRead cfg { calloc := granted } cl srv fd buf count offset cell =
      .ok (cl', srv', ret)) :
    Carried cfg cl fd buf count offset cell b pos ret ↔ Fits count offset b pos granted := by
  have hasked := asked_iff hr hc h
  have hvalue := remoteRead_value hr h
  have hslice (n : ℕ) : (slice b n (size64 (int32 count))).length =
      min (size64 (int32 count)) (b.length - n) := by simp [slice]
  constructor
  · intro hcar
    rcases hasked.mp hcar.asked with hnonneg | htop
    · by_cases hzero : int32 count = 0
      · refine .inr (.inl ⟨hzero, ?_⟩)
        rcases hvalue with ⟨-, n, hn, hret⟩ | ⟨-, hrefused⟩
        · have hsize := size64_of_nonneg hnonneg (by omega)
          have hempty : ret = 0 := by
            rw [hret, hslice]
            omega
          obtain hcount | ⟨n', hn', hend⟩ := hcar.zero hempty
          · exact .inl hcount
          · exact .inr fun _ m hm ↦ by rwa [Option.mem_unique hm hn']
        · exact .inr fun hgranted n hn ↦ by simp [hrefused ⟨hgranted, hnonneg⟩] at hn
      · exact .inl (by omega)
    · exact .inr (.inr htop)
  · intro hfits
    have hupper := int32_upper count
    refine ⟨hasked.mpr ?_, fun hret ↦ ?_, fun hret ↦ ?_⟩
    · rcases hfits with hpos | ⟨hzero, -⟩ | htop
      · exact .inl hpos.le
      · exact .inl hzero.ge
      · exact .inr htop
    · obtain ⟨⟨hgranted, hnonneg⟩, n, hn, hlen⟩ | ⟨hneg, -⟩ := hvalue
      · have hsize := size64_of_nonneg hnonneg (by omega)
        rw [hslice] at hlen
        rcases hfits with hpos | ⟨-, hcount | hend⟩ | htop
        · exact .inr ⟨n, hn, by omega⟩
        · exact .inl hcount
        · exact .inr ⟨n, hn, hend hgranted n hn⟩
        · have := int32_top htop hc
          omega
      · omega
    · obtain ⟨⟨hgranted, hnonneg⟩, n, hn, hlen⟩ | ⟨hneg, -⟩ := hvalue
      · have hle := (size64_int32_le_iff hc).mpr (.inl hnonneg)
        rw [hslice] at hlen
        exact .inr ⟨by omega, by omega⟩
      · exact .inl (by omega)

theorem open_reads : Reads sampleConfig Sessions.openSession.client Sessions.openSession.server 3 7
    samplePath samplePath [1, 2, 3, 4] 0 := by
  refine ⟨?_, ?_, ?_, ?_, ?_⟩ <;> decide +kernel

theorem read_size_carried_four : ∃ cl srv,
    remoteRead sampleConfig { calloc := true } Sessions.openSession.client
      Sessions.openSession.server 3 64 9 (-1) 8 = .ok (cl, srv, 4) ∧
    Carried sampleConfig Sessions.openSession.client 3 64 9 (-1) 8 [1, 2, 3, 4] 0 4 := by
  have hrun : (remoteRead sampleConfig { calloc := true } Sessions.openSession.client
      Sessions.openSession.server 3 64 9 (-1) 8).toOption.map (·.2.2) = some 4 := by
    decide +kernel
  obtain ⟨⟨cl, srv, ret⟩, hok, rfl⟩ := Option.map_eq_some_iff.mp hrun
  have hok' := toOption_eq_some hok
  refine ⟨cl, srv, hok', ?_⟩
  exact (read_size_carried open_reads (by omega) hok').mpr (.inl (by decide +kernel))

/-- A read of 2^32 bytes is asked for as one of none, and looks like the end of the file. -/
theorem read_size_lost : ¬∀ (count : ℕ) (cl : Client) (srv : Server) (ret : ℤ), count < 2 ^ 64 →
    remoteRead sampleConfig {} Sessions.openSession.client Sessions.openSession.server 3 64 count
      (-1) 8 = .ok (cl, srv, ret) →
    Carried sampleConfig Sessions.openSession.client 3 64 count (-1) 8 [1, 2, 3, 4] 0 ret := by
  intro h
  have hrun : (remoteRead sampleConfig {} Sessions.openSession.client Sessions.openSession.server 3
      64 (2 ^ 32) (-1) 8).toOption.map (·.2.2) = some 0 := by decide +kernel
  obtain ⟨⟨cl, srv, ret⟩, hok, rfl⟩ := Option.map_eq_some_iff.mp hrun
  have hcar := h (2 ^ 32) cl srv 0 (by omega) (toOption_eq_some hok)
  obtain hcount | ⟨n, hn, hend⟩ := hcar.zero rfl
  · omega
  · obtain rfl : 0 = n := by simpa [readsAt] using hn
    simp at hend

end FTCache.ReadSizes
