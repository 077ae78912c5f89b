import FTCache.RemoteCalls
import FTCache.World

namespace FTCache.Degradation

open Words Client

variable {cfg : Config} {rpc : Rpc} {cl : Client} {cell : Addr} {p : Path}

/-- The tracked file that a call of `ftc_track_file`, `ftc_remote_read`,
`ftc_remote_pread` or `ftc_remote_close` is about. -/
def trackedFile (cfg : Config) (cl : Client) : Call → Option Path
  | .openFile path flags _ => trackedPath cfg path flags
  | .read fd _ _ => cl.fdMap fd
  | .pread fd _ _ _ => cl.fdMap fd
  | .close fd => cl.fdMap fd
  | .lseek _ _ _ => none

/-- The remote call fails in one of the ways the RPC layer can make it fail. -/
def Fails (cfg : Config) (rpc : Rpc) (cl : Client) (p : Path) : Prop :=
  ¬cl.Sendable cfg rpc (cfg.host p) ∨
    match rpc.ending with
    | .completed (.output out) => -2 ^ 31 ≤ out ∧ out < 0
    | _ => True

/-- The call returns to its wrapper; a transfer returns a negative value, for
which the wrapper makes the real call. -/
def Degrades (cfg : Config) (rpc : Rpc) (cl : Client) (cell : Addr) : Call → Prop
  | .openFile path flags fd => ∃ r, cl.trackFile cfg rpc path flags fd cell = .ok r
  | .read fd buf count => ∃ cl' ret, cl.transfer cfg rpc fd buf count (-1) cell = .ok (cl', ret) ∧
      ret < 0 ∧ cl'.finishRead cfg fd buf count ret =
        transferResult buf ((cl'.realRead cfg fd buf count).1,
          int32 (cl'.realRead cfg fd buf count).2)
  | .pread fd buf count offset =>
    ∃ cl' ret, cl.transfer cfg rpc fd buf count offset cell = .ok (cl', ret) ∧
      ret < 0 ∧ cl'.finishPread cfg fd buf count offset ret =
        transferResult buf (cl'.realPread cfg fd buf count offset)
  | .close fd => ∃ r, cl.ftcRemoteClose cfg rpc.forwards fd = .ok r
  | .lseek _ _ _ => True

/-- The host has been given up, or the request can be sent and its completion,
where the call waits for one, reports success. -/
def Survives (cfg : Config) (rpc : Rpc) (cl : Client) (p : Path) (k : Call) : Prop :=
  cl.overLimit (cfg.host p) ∨ cl.Sendable cfg rpc (cfg.host p) ∧
    match k with
    | .close _ => True
    | .openFile _ _ _ => rpc.ending ≠ .completed .failed
    | .read _ buf _ => rpc.ending ≠ .completed .failed ∧ buf ≠ 0
    | .pread _ buf _ _ => rpc.ending ≠ .completed .failed ∧ buf ≠ 0
    | .lseek _ _ _ => True

theorem map_isOk {α β : Type} {e : Except Fault α} {f : α → β} :
    (∃ r, e.map f = .ok r) ↔ ∃ r, e = .ok r := by
  cases e <;> simp [Except.map]

theorem awaitOpen_isOk {host : Host} {fd : Fd} {e : Ending} :
    (∃ r, cl.awaitOpen host fd cell e = .ok r) ↔ e ≠ .completed .failed := by
  cases e with
  | timedOut => simp [awaitOpen]
  | completed r => cases r <;> simp [awaitOpen, ftcOpenCb]

theorem trackFile_isOk {path : Path} {flags : BitVec 32} {fd : Fd}
    (hp : trackedPath cfg path flags = some p) :
    (∃ r, cl.trackFile cfg rpc path flags fd cell = .ok r) ↔
      cl.overLimit (cfg.host p) ∨
        cl.Sendable cfg rpc (cfg.host p) ∧ rpc.ending ≠ .completed .failed := by
  set cl₁ : Client := { cl with fdMap := cl.fdMap.insert fd p } with hcl
  have hover : cl₁.overLimit (cfg.host p) ↔ cl.overLimit (cfg.host p) := Iff.rfl
  have hsend : cl₁.Sendable cfg rpc (cfg.host p) ↔ cl.Sendable cfg rpc (cfg.host p) := Iff.rfl
  unfold trackFile ftcTrackFile
  simp only [hp, ← hcl, ← hover, ← hsend]
  by_cases ho : cl₁.overLimit (cfg.host p)
  · simp [ho]
  · simp only [ho, ↓reduceIte, false_or]
    rcases genOpenRpc_cases cfg rpc cl₁ (cfg.host p) p fd cell with ⟨hs, r, hr⟩ | ⟨hs, e, hr⟩
    · rw [hr]
      simp only [Except.map, hs, true_and]
      exact map_isOk.trans awaitOpen_isOk
    · rw [hr]
      simp [Except.map, hs]

theorem awaitTransfer_isOk {host : Host} {e : Ending} :
    (∃ r, cl.awaitTransfer host cell e = .ok r) ↔ e ≠ .completed .failed := by
  cases e with
  | timedOut => simp [awaitTransfer]
  | completed r => cases r <;> simp [awaitTransfer, ftcReadCb, Except.map]

theorem awaitTransfer_negative {host : Host} {e : Ending} {cl' : Client} {ret : ℤ}
    (hcell : cl.cells cell = {})
    (hf : ∀ out, e = .completed (.output out) → -2 ^ 31 ≤ out ∧ out < 0)
    (h : cl.awaitTransfer host cell e = .ok (cl', ret)) : -2 ^ 31 ≤ ret ∧ ret < 0 := by
  cases e with
  | timedOut =>
    cases h
    omega
  | completed r =>
    cases r with
    | failed => cases h
    | undecodable g =>
      cases h
      simp [setDone, hcell]
    | output out =>
      cases h
      simpa using hf out rfl

theorem transfer_isOk {fd : Fd} {buf : Addr} {count : ℕ} {offset : ℤ} (hp : cl.fdMap fd = some p) :
    (∃ r, cl.transfer cfg rpc fd buf count offset cell = .ok r) ↔
      cl.overLimit (cfg.host p) ∨
        cl.Sendable cfg rpc (cfg.host p) ∧ rpc.ending ≠ .completed .failed ∧ buf ≠ 0 := by
  unfold transfer remoteTransfer
  simp only [hp]
  by_cases ho : cl.overLimit (cfg.host p)
  · simp [ho]
  · simp only [ho, ↓reduceIte, false_or]
    rcases genReadRpc_cases cfg rpc cl (cfg.host p) p fd buf count offset cell with
      ⟨⟨hs, hbuf⟩, r, -, hr⟩ | ⟨hs, e, hr⟩
    · rw [hr]
      simp only [Except.map, hs, hbuf, true_and, ne_eq, not_false_eq_true, and_true]
      exact awaitTransfer_isOk
    · rw [hr]
      refine iff_of_false (by simp [Except.map]) ?_
      intro h
      obtain ⟨hsend, -, hbuf⟩ := h
      exact hs ⟨hsend, hbuf⟩

theorem transfer_negative {fd : Fd} {buf : Addr} {count : ℕ} {offset : ℤ} {cl' : Client} {ret : ℤ}
    (hp : cl.fdMap fd = some p) (hf : Fails cfg rpc cl p)
    (h : cl.transfer cfg rpc fd buf count offset cell = .ok (cl', ret)) :
    -2 ^ 31 ≤ ret ∧ ret < 0 := by
  unfold transfer remoteTransfer at h
  simp only [hp] at h
  by_cases ho : cl.overLimit (cfg.host p)
  · simp only [ho, ↓reduceIte] at h
    cases h
    omega
  · simp only [ho, ↓reduceIte] at h
    rcases genReadRpc_cases cfg rpc cl (cfg.host p) p fd buf count offset cell with
      ⟨⟨hs, -⟩, r, hcell, hr⟩ | ⟨-, e, hr⟩
    · rw [hr] at h
      refine awaitTransfer_negative hcell (fun out he ↦ ?_) h
      have hout := hf.resolve_left (not_not.mpr hs)
      rwa [he] at hout
    · rw [hr] at h
      cases h

theorem close_isOk {fd : Fd} (hp : cl.fdMap fd = some p) :
    (∃ r, cl.ftcRemoteClose cfg rpc.forwards fd = .ok r) ↔
      cl.overLimit (cfg.host p) ∨ cl.Sendable cfg rpc (cfg.host p) := by
  unfold ftcRemoteClose
  simp only [hp]
  by_cases ho : cl.overLimit (cfg.host p)
  · simp [ho]
  · simp only [ho, ↓reduceIte, false_or]
    rcases genCloseRpc_cases cfg rpc cl (cfg.host p) p fd with ⟨hs, r, hr⟩ | ⟨hs, e, hr⟩
    · simp [hr, hs, Except.map]
    · simp [hr, hs, Except.map]

/-- A remote call that fails degrades to the file system if and only if its host
has been given up, or its request goes out and its completion reports success. -/
theorem remote_failures_degrade_iff (cfg : Config) (rpc : Rpc) (cl : Client) (cell : Addr)
    (k : Call) (p : Path) (hp : trackedFile cfg cl k = some p) (hf : Fails cfg rpc cl p) :
    Degrades cfg rpc cl cell k ↔ Survives cfg rpc cl p k := by
  cases k with
  | openFile path flags fd => exact trackFile_isOk hp
  | read fd buf count =>
    rw [Survives, ← transfer_isOk (show cl.fdMap fd = some p from hp)]
    constructor
    · intro h
      obtain ⟨cl', ret, hr, -⟩ := h
      exact ⟨_, hr⟩
    · intro h
      obtain ⟨⟨cl', ret⟩, hr⟩ := h
      obtain ⟨hlow, hneg⟩ := transfer_negative hp hf hr
      exact ⟨cl', ret, hr, hneg, finishRead_negative hlow hneg⟩
  | pread fd buf count offset =>
    rw [Survives, ← transfer_isOk hp]
    constructor
    · intro h
      obtain ⟨cl', ret, hr, -⟩ := h
      exact ⟨_, hr⟩
    · intro h
      obtain ⟨⟨cl', ret⟩, hr⟩ := h
      exact ⟨cl', ret, hr, (transfer_negative hp hf hr).2,
        by simp [finishPread, (transfer_negative hp hf hr).2]⟩
  | close fd => simpa [Degrades, Survives] using close_isOk hp
  | lseek => cases hp

def openClient : Client :=
  { sampleClient with
    fdMap := sampleClient.fdMap.insert 3 samplePath
    fdRedirMap := sampleClient.fdRedirMap.insert 3 7 }

/-- The server answers a read with -1. -/
theorem remote_failures_degrade_iff_refused :
    Degrades sampleConfig ⟨true, .completed (.output (-1))⟩ openClient 8 (.read 3 64 4) := by
  refine (remote_failures_degrade_iff _ _ _ _ (.read 3 64 4) samplePath ?_ (.inr ?_)).mpr (.inr ?_)
  · decide +kernel
  · decide
  · exact ⟨⟨.inr ⟨_, rfl, (0, ['a']), by simp, by decide +kernel⟩, rfl⟩, by decide, by decide⟩

/-- The completion of a read reports an error, and the process stops. -/
theorem remote_failures_abort :
    ¬∀ (rpc : Rpc) (cl : Client) (cell : Addr) (k : Call) (p : Path),
      trackedFile sampleConfig cl k = some p → Fails sampleConfig rpc cl p →
      Degrades sampleConfig rpc cl cell k := by
  intro h
  obtain ⟨cl', ret, hr, -⟩ := h ⟨true, .completed .failed⟩ openClient 8 (.read 3 64 4) samplePath
    (by decide +kernel) (.inr trivial)
  have hstop : (openClient.transfer sampleConfig ⟨true, .completed .failed⟩ 3 64 4
      (-1) 8).toOption.isNone = true := by decide +kernel
  rw [hr] at hstop
  cases hstop

end FTCache.Degradation
