import FTCache.Sessions
import FTCache.Streams

namespace FTCache.PositionalReads

open Runs Posix Words RemoteReads Streams

def offset : Op → Option ℤ
  | .pread _ _ offset _ => some offset
  | _ => none

/-- A positional read leaves the position where it was, and returns -1 for an offset
before the beginning. -/
def Frames (fd : Fd) (s s' : Stream) (op : Op) : Prop :=
  ∀ off ∈ offset op, s'.position fd = s.position fd ∧ (off < 0 → s'.lastReturned = some (-1))

variable {cfg : Config} {fd a : Fd} {path q : Path} {b : Bytes} {s s' : Stream} {pos : ℕ}

/-- The one offset that goes wrong is the one that stands for a sequential request. -/
theorem frames_iff {op : Op} (h : At cfg fd a path q b s pos)
    (hs : s.step cfg fd op = some s') : Frames fd s s' op ↔ offset op ≠ some (-1) := by
  cases op with
  | read buf count cell => simp [Frames, offset]
  | lseek off whence => simp [Frames, offset]
  | lseek64 off whence => simp [Frames, offset]
  | pread buf count off cell =>
    obtain ⟨hat, hlast⟩ := pread_at h hs
    simp only [Frames, offset, Option.mem_some_iff, forall_eq', ne_eq, Option.some_inj]
    constructor
    · intro hframes hoff
      have hret := hframes.2 (by omega)
      rw [hlast, hoff] at hret
      have hlen : ((slice b pos (size64 (int32 count))).length : ℤ) = -1 := Option.some.inj hret
      omega
    · intro hoff
      rw [if_neg hoff] at hat
      refine ⟨hat.position_eq.trans h.position_eq.symm, fun hneg ↦ ?_⟩
      rw [hlast]
      simp only [readsAt, if_neg hoff, if_pos hneg]

/-- In a failure-free run every positional read leaves the stream as it was exactly when
none of them has offset -1. -/
theorem pread_keeps_position (cfg : Config) (fd a : Fd) (path q : Path) (b : Bytes)
    (s₀ s : Stream) (pos : ℕ) (ops : List Op) (h : At cfg fd a path q b s₀ pos)
    (hrun : exec (Stream.step cfg fd) s₀ ops = some s) :
    Along (Stream.step cfg fd) (fun s op ↦ ∀ s' ∈ s.step cfg fd op, Frames fd s s' op) s₀ ops ↔
      ∀ op ∈ ops, offset op ≠ some (-1) := by
  rw [← Along.iff_forall hrun]
  refine Along.congr_of_step (I := fun s ↦ ∃ n, At cfg fd a path q b s n) (fun v op v' hv hs ↦ ?_)
    ⟨pos, h⟩ hrun
  obtain ⟨n, hn⟩ := hv
  simp only [hs, Option.mem_some_iff, forall_eq']
  exact ⟨frames_iff hn hs, fun _ ↦ step_at hn hs⟩

def openStream : Stream := ⟨Sessions.openSession.client, Sessions.openSession.server, []⟩

theorem openStream_at :
    At sampleConfig 3 7 samplePath samplePath [1, 2, 3, 4] openStream 0 := by
  refine ⟨⟨?_, ?_, ?_, ?_, ?_⟩, ?_⟩ <;> decide +kernel

def mixedRun : List Op :=
  [.read 64 1 8, .pread 64 2 2 8, .pread 64 2 (-3) 8, .read 64 2 8]

theorem pread_keeps_position_mixed :
    ∃ s, exec (Stream.step sampleConfig 3) openStream mixedRun = some s ∧
      s.trace.map Prod.snd = [⟨1, [1]⟩, ⟨2, [3, 4]⟩, ⟨-1, []⟩, ⟨2, [2, 3]⟩] ∧
      Along (Stream.step sampleConfig 3)
        (fun s op ↦ ∀ s' ∈ s.step sampleConfig 3 op, Frames 3 s s' op) openStream mixedRun := by
  obtain ⟨s, hs, hres⟩ := (Option.any_eq_true _ _).mp
    (show (exec (Stream.step sampleConfig 3) openStream mixedRun).any (fun s ↦
      s.trace.map Prod.snd = [⟨1, [1]⟩, ⟨2, [3, 4]⟩, ⟨-1, []⟩, ⟨2, [2, 3]⟩]) = true by
        decide +kernel)
  refine ⟨s, hs, by simpa using hres, ?_⟩
  exact (pread_keeps_position sampleConfig 3 7 samplePath samplePath [1, 2, 3, 4] openStream s 0
    mixedRun openStream_at hs).mpr (by decide)

/-- Offset -1 gives the bytes at the position, and moves it. -/
theorem pread_moves_position :
    ¬∀ (ops : List Op) (s : Stream), exec (Stream.step sampleConfig 3) openStream ops = some s →
      Along (Stream.step sampleConfig 3)
        (fun s op ↦ ∀ s' ∈ s.step sampleConfig 3 op, Frames 3 s s' op) openStream ops := by
  intro h
  obtain ⟨s, hs, hres⟩ := (Option.any_eq_true _ _).mp
    (show (exec (Stream.step sampleConfig 3) openStream [.pread 64 2 (-1) 8]).any (fun s ↦
      s.trace.map Prod.snd = [⟨2, [1, 2]⟩] ∧ s.position 3 = some 2 ∧
        s.lastReturned = some 2) = true by decide +kernel)
  obtain ⟨-, -, hlast⟩ := of_decide_eq_true hres
  have hstep : openStream.step sampleConfig 3 (.pread 64 2 (-1) 8) = some s := by
    simpa [exec] using hs
  have hframes := (h _ s hs).1 s hstep (-1) rfl
  have hret := hframes.2 (by omega)
  rw [hlast] at hret
  simp at hret

end FTCache.PositionalReads
