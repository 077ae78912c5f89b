import FTCache.PositionalReads

namespace FTCache.WideSeeks

open Runs Posix Words Streams PositionalReads

def seek : Op → Option (ℤ × ℤ)
  | .lseek offset whence => some (offset, whence)
  | .lseek64 offset whence => some (offset, whence)
  | _ => none

/-- A seek returns what `lseek64` would on the client's own descriptor, if that stood where
the server's stands, and leaves the server's where that would be left. -/
def Alike (cfg : Config) (fd : Fd) (path : Path) (s s' : Stream) (op : Op) : Prop :=
  ∀ x ∈ seek op, ∀ pos ∈ s.position fd,
    let r := lseek cfg.files (s.client.kernel.insert fd ⟨path, pos⟩) fd x.1 x.2
    s'.lastReturned = some (offsetReturned r.1) ∧ s'.position fd = (r.2 fd).map Description.pos

/-- A seek to a legal position has an offset that is an `int` and goes below 2^31. One that
must fail goes nowhere by the low 32 bits of its offset either, or goes where the
descriptor stands and where the low 32 bits of the position read -1. -/
def Fits (size pos : ℕ) (offset whence : ℤ) : Prop :=
  ∀ base ∈ seekBase size pos whence,
    if Legal (base + offset) then int32 offset = offset ∧ base + offset < 2 ^ 31
    else ¬Legal (base + int32 offset) ∨ base + int32 offset = pos ∧ int32 pos = -1

instance (size pos : ℕ) (offset whence : ℤ) : Decidable (Fits size pos offset whence) :=
  inferInstanceAs (Decidable (∀ base ∈ seekBase size pos whence, _))

def Fitting (b : Bytes) (fd : Fd) (s : Stream) (op : Op) : Prop :=
  ∀ x ∈ seek op, ∀ pos ∈ s.position fd, Fits b.length pos x.1 x.2

instance (b : Bytes) (fd : Fd) (s : Stream) (op : Op) : Decidable (Fitting b fd s op) :=
  inferInstanceAs (Decidable (∀ x ∈ seek op, ∀ pos ∈ s.position fd, _))

theorem narrowed_iff (pos : ℕ) (base offset : ℤ) :
    (int32 (offsetReturned
          (if Legal (base + int32 offset) then some (base + int32 offset).toNat else none)) =
        offsetReturned (if Legal (base + offset) then some (base + offset).toNat else none) ∧
      (if Legal (base + int32 offset) then some (base + int32 offset).toNat else none).getD pos =
        (if Legal (base + offset) then some (base + offset).toNat else none).getD pos) ↔
    if Legal (base + offset) then int32 offset = offset ∧ base + offset < 2 ^ 31
    else ¬Legal (base + int32 offset) ∨ base + int32 offset = pos ∧ int32 pos = -1 := by
  have hfail : int32 (-1) = -1 := int32_of_range (by omega) (by omega)
  by_cases hlow : Legal (base + int32 offset)
  · have hn : ((base + int32 offset).toNat : ℤ) = base + int32 offset := by
      have := hlow.1
      omega
    have hnarrow := int32_upper (base + int32 offset)
    by_cases hlegal : Legal (base + offset)
    · have hm : ((base + offset).toNat : ℤ) = base + offset := by
        have := hlegal.1
        omega
      simp only [hlow, hlegal, ↓reduceIte, offsetReturned_some, Option.getD_some, hn, hm]
      constructor
      · intro hx
        obtain ⟨hret, hpos⟩ := hx
        exact ⟨by omega, by omega⟩
      · intro hx
        obtain ⟨hoff, hlt⟩ := hx
        have hge := hlegal.1
        rw [hoff]
        exact ⟨int32_of_range (by omega) hlt, rfl⟩
    · simp only [hlow, hlegal, ↓reduceIte, offsetReturned_some, offsetReturned_none,
        Option.getD_some, Option.getD_none, hn, not_true_eq_false, false_or]
      constructor
      · intro hx
        obtain ⟨hret, hpos⟩ := hx
        have he : base + int32 offset = pos := by omega
        exact ⟨he, he ▸ hret⟩
      · intro hx
        obtain ⟨he, hret⟩ := hx
        exact ⟨he ▸ hret, by omega⟩
  · by_cases hlegal : Legal (base + offset)
    · have hge := hlegal.1
      simp only [hlow, hlegal, ↓reduceIte, offsetReturned_some, offsetReturned_none, hfail]
      constructor
      · intro hx
        omega
      · intro hx
        obtain ⟨hoff, -⟩ := hx
        rw [hoff] at hlow
        exact absurd hlegal hlow
    · simp [hlow, hlegal, hfail]

variable {cfg : Config} {fd a : Fd} {path q : Path} {b : Bytes} {s s' : Stream} {pos : ℕ}

theorem alike_iff {op : Op} (h : At cfg fd a path q b s pos) (hb : cfg.files path = some b)
    (hs : s.step cfg fd op = some s') : Alike cfg fd path s s' op ↔ Fitting b fd s op := by
  have hseek (offset whence : ℤ) (hop : op = .lseek offset whence ∨ op = .lseek64 offset whence) :
      Alike cfg fd path s s' op ↔ Fitting b fd s op := by
    obtain ⟨hat, hlast⟩ := seek_at hop h hs
    have hx : seek op = some (offset, whence) := by
      rcases hop with rfl | rfl
      · rfl
      · rfl
    have hopen : (s.client.kernel.insert fd ⟨path, pos⟩) fd = some ⟨path, pos⟩ := by simp
    obtain ⟨hout, hmoved⟩ := lseek_of_open hopen hb offset whence
    simp only [Alike, Fitting, hx, h.position_eq, Option.mem_some_iff, forall_eq', hlast, hout,
      hmoved, hat.position_eq, Option.map_some, Option.some_inj, Fits, seekTarget_eq_bind]
    cases seekBase b.length pos whence with
    | none => simp [int32_of_range]
    | some base =>
      simp only [Option.bind_some, Option.mem_some_iff, forall_eq']
      exact narrowed_iff pos base offset
  cases op with
  | read buf count cell => simp [Alike, Fitting, seek]
  | pread buf count offset cell => simp [Alike, Fitting, seek]
  | lseek offset whence => exact hseek offset whence (.inl rfl)
  | lseek64 offset whence => exact hseek offset whence (.inr rfl)

/-- In a failure-free run the seeks do as `lseek64` exactly when each of them fits. -/
theorem seeks_alike (cfg : Config) (fd a : Fd) (path q : Path) (b : Bytes) (s₀ s : Stream)
    (pos : ℕ) (ops : List Op) (h : At cfg fd a path q b s₀ pos) (hb : cfg.files path = some b)
    (hrun : exec (Stream.step cfg fd) s₀ ops = some s) :
    Along (Stream.step cfg fd) (fun s op ↦ ∀ s' ∈ s.step cfg fd op, Alike cfg fd path s s' op) s₀
        ops ↔
      Along (Stream.step cfg fd) (Fitting b fd) s₀ ops := by
  refine Along.congr_of_step (I := fun s ↦ ∃ n, At cfg fd a path q b s n) (fun v op v' hv hs ↦ ?_)
    ⟨pos, h⟩ hrun
  obtain ⟨n, hn⟩ := hv
  simp only [hs, Option.mem_some_iff, forall_eq']
  exact ⟨alike_iff hn hb hs, fun _ ↦ step_at hn hs⟩

def seekRun : List Op := [.lseek 1 0, .lseek64 (-7) 1, .read 64 1 8, .lseek64 1 2]

theorem seeks_alike_small :
    ∃ s, exec (Stream.step sampleConfig 3) openStream seekRun = some s ∧
      s.trace.map Prod.snd = [⟨1, []⟩, ⟨-1, []⟩, ⟨1, [2]⟩, ⟨5, []⟩] ∧
      Along (Stream.step sampleConfig 3)
        (fun s op ↦ ∀ s' ∈ s.step sampleConfig 3 op, Alike sampleConfig 3 samplePath s s' op)
        openStream seekRun := by
  obtain ⟨s, hs, hres⟩ := (Option.any_eq_true _ _).mp
    (show (exec (Stream.step sampleConfig 3) openStream seekRun).any (fun s ↦
      s.trace.map Prod.snd = [⟨1, []⟩, ⟨-1, []⟩, ⟨1, [2]⟩, ⟨5, []⟩]) = true by decide +kernel)
  refine ⟨s, hs, by simpa using hres, ?_⟩
  exact (seeks_alike sampleConfig 3 7 samplePath samplePath [1, 2, 3, 4] openStream s 0 seekRun
    openStream_at rfl hs).mpr (by decide +kernel)

/-- A seek 3 GiB into a file is answered with an error; the server's descriptor stays. -/
theorem seek_narrowed :
    ¬∀ (ops : List Op) (s : Stream), exec (Stream.step sampleConfig 3) openStream ops = some s →
      Along (Stream.step sampleConfig 3)
        (fun s op ↦ ∀ s' ∈ s.step sampleConfig 3 op, Alike sampleConfig 3 samplePath s s' op)
        openStream ops := by
  intro h
  obtain ⟨s, hs, hres⟩ := (Option.any_eq_true _ _).mp
    (show (exec (Stream.step sampleConfig 3) openStream [.lseek64 (3 * 2 ^ 30) 0]).any (fun s ↦
      s.lastReturned = some (-1) ∧ s.position 3 = some 0) = true by decide +kernel)
  obtain ⟨hlast, -⟩ := of_decide_eq_true hres
  have hstep : openStream.step sampleConfig 3 (.lseek64 (3 * 2 ^ 30) 0) = some s := by
    simpa [exec] using hs
  obtain ⟨hret, -⟩ := (h _ s hs).1 s hstep (3 * 2 ^ 30, 0) rfl 0 openStream_at.position_eq
  rw [hlast] at hret
  revert hret
  decide +kernel

end FTCache.WideSeeks
