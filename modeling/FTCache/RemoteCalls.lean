import FTCache.Wrappers

namespace FTCache.Client

open Words Posix

/-- How the RPC layer ends a forwarded request: it runs the callback in time, or
the wait for it times out. -/
inductive Ending
  | completed (r : Completion)
  | timedOut
  deriving DecidableEq

/-- The RPC layer as one remote call finds it. -/
structure Rpc where
  forwards : Bool
  ending : Ending
  deriving DecidableEq

variable (cfg : Config) (rpc : Rpc) (cl : Client)

/-- `ftc_client_block` on an open request. -/
def awaitOpen (host : Host) (fd : Fd) (cell : Addr) : Ending → Except Fault Client
  | .completed r => cl.ftcOpenCb fd cell r
  | .timedOut => .ok (cl.timeOut host)

/-- `ftc_read_block`. -/
def awaitTransfer (host : Host) (cell : Addr) : Ending → Except Fault (Client × ℤ)
  | .completed r => (cl.ftcReadCb cell r).map fun cl ↦ (cl, (cl.cells cell).bytesRead)
  | .timedOut => .ok (cl.timeOut host, -1)

/-- `ftc_track_file` from its call to its return. -/
def trackFile (path : Path) (flags : BitVec 32) (fd : Fd) (cell : Addr) :
    Except Fault (Client × Bool) :=
  match cl.ftcTrackFile cfg rpc.forwards path flags fd cell with
  | .error e => .error e
  | .ok (cl, tracked, none) => .ok (cl, tracked)
  | .ok (cl, tracked, some s) =>
    (cl.awaitOpen s.host fd cell rpc.ending).map fun cl ↦ (cl, tracked)

/-- `ftc_remote_read` (with offset -1) and `ftc_remote_pread` from call to return. -/
def transfer (fd : Fd) (buf : Addr) (count : ℕ) (offset : ℤ) (cell : Addr) :
    Except Fault (Client × ℤ) :=
  match cl.remoteTransfer cfg rpc.forwards fd buf count offset cell with
  | .error e => .error e
  | .ok (cl, none) => .ok (cl, -1)
  | .ok (cl, some s) => cl.awaitTransfer s.host cell rpc.ending

/-- The address of a host can be found: it is cached, or has a line in the port file. -/
def Known (host : Host) : Prop :=
  (cl.addressCache host).isSome ∨ ∃ lines ∈ cfg.ports, ∃ line ∈ lines, line.1 = host

/-- A remote call gets its request away. -/
def Sendable (host : Host) : Prop := cl.Known cfg host ∧ rpc.forwards = true

variable {cfg rpc cl}

theorem Known.congr {cl' : Client} {host : Host} (h : cl.Known cfg host)
    (hc : cl'.addressCache = cl.addressCache) : cl'.Known cfg host := by
  unfold Known at *
  rwa [hc]

theorem lookup_found_iff {host : Host} :
    (∃ a, (cl.lookup cfg host).1 = .found a) ↔ cl.Known cfg host := by
  unfold lookup ftcClientCommLookupAddr Known
  cases hc : cl.addressCache host with
  | some a => simp
  | none =>
    cases cfg.ports with
    | none => simp
    | some lines =>
      cases hf : lines.find? (·.1 = host) with
      | some line =>
        have hline : line.1 = host := by simpa using List.find?_some hf
        refine iff_of_true ⟨line.2, ?_⟩
          (.inr ⟨lines, rfl, line, List.mem_of_find?_eq_some hf, hline⟩)
        simp only [hf]
      | none =>
        refine iff_of_false ?_ ?_
        · simp [hf]
        · have hno := List.find?_eq_none.mp hf
          simp only [decide_eq_true_eq] at hno
          simpa using fun a ha ↦ hno (host, a) ha rfl

theorem forward_isOk_iff {sent : Client × Sent} {addr : Lookup} {forwards : Bool} :
    (∃ r, forward forwards sent addr = .ok r) ↔ (∃ a, addr = .found a) ∧ forwards = true := by
  cases addr with
  | found a => cases forwards <;> simp [forward]
  | null => simp [forward]
  | uninitialised => simp [forward]

/-- A sent request goes out as it is, or nothing does. -/
theorem forward_lookup {host : Host} {sent : Client × Sent} :
    (cl.Sendable cfg rpc host ∧ forward rpc.forwards sent (cl.lookup cfg host).1 = .ok sent) ∨
      ¬cl.Sendable cfg rpc host ∧
        ∃ e, forward rpc.forwards sent (cl.lookup cfg host).1 = .error e := by
  by_cases h : cl.Sendable cfg rpc host
  · obtain ⟨r, hr⟩ := forward_isOk_iff.mpr ⟨lookup_found_iff.mpr h.1, h.2⟩
    exact .inl ⟨h, by rw [hr, forward_ok hr]⟩
  · refine .inr ⟨h, ?_⟩
    cases hr : forward rpc.forwards sent (cl.lookup cfg host).1 with
    | error e => exact ⟨e, rfl⟩
    | ok r =>
      obtain ⟨hfound, hforwards⟩ := forward_isOk_iff.mp ⟨r, hr⟩
      exact absurd ⟨lookup_found_iff.mp hfound, hforwards⟩ h

theorem genOpenRpc_cases (cfg : Config) (rpc : Rpc) (cl : Client) (host : Host) (path : Path)
    (fd : Fd) (cell : Addr) :
    (cl.Sendable cfg rpc host ∧
      ∃ r, cl.ftcClientCommGenOpenRpc cfg rpc.forwards host path fd cell = .ok r) ∨
    ¬cl.Sendable cfg rpc host ∧
      ∃ e, cl.ftcClientCommGenOpenRpc cfg rpc.forwards host path fd cell = .error e :=
  forward_lookup.imp (fun h ↦ ⟨h.1, _, h.2⟩) id

theorem genCloseRpc_cases (cfg : Config) (rpc : Rpc) (cl : Client) (host : Host) (path : Path)
    (fd : Fd) :
    (cl.Sendable cfg rpc host ∧
      ∃ r, cl.ftcClientCommGenCloseRpc cfg rpc.forwards host path fd = .ok r) ∨
    ¬cl.Sendable cfg rpc host ∧
      ∃ e, cl.ftcClientCommGenCloseRpc cfg rpc.forwards host path fd = .error e :=
  forward_lookup.imp (fun h ↦ ⟨h.1, _, h.2⟩) id

theorem genReadRpc_cases (cfg : Config) (rpc : Rpc) (cl : Client) (host : Host) (path : Path)
    (fd : Fd) (buf : Addr) (count : ℕ) (offset : ℤ) (cell : Addr) :
    ((cl.Sendable cfg rpc host ∧ buf ≠ 0) ∧ ∃ r : Client × Sent, r.1.cells cell = {} ∧
      cl.ftcClientCommGenReadRpc cfg rpc.forwards host path fd buf count offset cell = .ok r) ∨
    ¬(cl.Sendable cfg rpc host ∧ buf ≠ 0) ∧
      ∃ e, cl.ftcClientCommGenReadRpc cfg rpc.forwards host path fd buf count offset cell =
        .error e := by
  by_cases hbuf : buf = 0
  · refine .inr ⟨fun h ↦ h.2 hbuf, .assertBuffer, ?_⟩
    simp [ftcClientCommGenReadRpc, hbuf]
  · simp only [ftcClientCommGenReadRpc, hbuf, ↓reduceIte, ne_eq, not_false_eq_true, and_true]
    refine forward_lookup.imp (fun h ↦ ⟨h.1, _, ?_, h.2⟩) id
    simp

/-- The address cache grows by lines of the port file only. -/
theorem lookup_known_iff {host host' : Host} :
    (cl.lookup cfg host').2.Known cfg host ↔ cl.Known cfg host := by
  simp only [Known, lookup]
  unfold ftcClientCommLookupAddr
  split
  case h_1 => rfl
  case h_2 => rfl
  case h_3 lines hc hports =>
    split
    case h_1 line hl =>
      by_cases hh : host = host'
      · subst hh
        have hline : line.1 = host := by simpa using List.find?_some hl
        refine iff_of_true (.inl (by simp)) (.inr ⟨lines, hports, line, ?_, hline⟩)
        exact List.mem_of_find?_eq_some hl
      · simp [hh]
    case h_2 => rfl

theorem lookup_known {host : Host} (h : cl.Known cfg host) (host' : Host) :
    (cl.lookup cfg host').2.Known cfg host := lookup_known_iff.mpr h

theorem remoteTransfer_known {fd : Fd} {buf : Addr} {count : ℕ} {offset : ℤ} {cell : Addr}
    {cl' : Client} {s : Option Sent} {host : Host}
    (hs : (cl.remoteTransfer cfg true fd buf count offset cell).toOption = some (cl', s))
    (h : cl.Known cfg host) : cl'.Known cfg host := by
  unfold remoteTransfer at hs
  split at hs
  · cases hs
    exact h
  · split at hs
    · cases hs
      exact h
    · obtain ⟨r, hr, he⟩ := toOption_map_eq_some hs
      simp only [ftcClientCommGenReadRpc] at hr
      split at hr
      · cases hr
      · obtain rfl := forward_ok hr
        cases he
        exact lookup_known h _

theorem startCall_known {k : Call} {cell : Addr} {cl' : Client} {s : Option Sent} {host : Host}
    (hs : cl.startCall cfg k cell = some (cl', s)) (h : cl.Known cfg host) :
    cl'.Known cfg host := by
  cases k with
  | openFile path flags fd =>
    obtain ⟨cl₁, h₁, h₂⟩ := Option.bind_eq_some_iff.mp hs
    obtain ⟨p, hp, hg⟩ := Option.bind_eq_some_iff.mp h₁
    obtain ⟨r, hr, he⟩ := Option.map_eq_some_iff.mp h₂
    cases he
    split at hg
    case isFalse => cases hg
    case isTrue =>
      cases hg
      unfold ftcTrackFile at hr
      cases ht : trackedPath cfg path flags with
      | none =>
        simp only [ht] at hr
        cases hr
        exact h
      | some p' =>
        simp only [ht] at hr
        split at hr
        · cases hr
          exact h
        · obtain ⟨r', hr', he⟩ := toOption_map_eq_some hr
          obtain rfl := forward_ok hr'
          cases he
          have hreal : Known cfg { cl with kernel := cl.kernel.insert fd ⟨p, 0⟩ } host := h
          exact lookup_known hreal _
  | read fd buf count => exact remoteTransfer_known hs h
  | pread fd buf count offset => exact remoteTransfer_known hs h
  | lseek fd offset whence =>
    simp only [startCall, ftcRemoteLseek] at hs
    split at hs
    · cases hs
      exact h
    · obtain ⟨r, hr, he⟩ := toOption_map_eq_some hs
      obtain rfl := forward_ok hr
      cases he
      exact lookup_known h _
  | close fd =>
    simp only [startCall, ftcRemoveFd] at hs
    obtain ⟨r, hr, he⟩ := toOption_map_eq_some hs
    cases he
    unfold ftcRemoteClose at hr
    split at hr
    · cases hr
      exact h
    · split at hr
      · cases hr
        exact h
      · obtain ⟨r', hr', he⟩ := toOption_map_eq_some (congrArg Except.toOption hr)
        obtain rfl := forward_ok hr'
        cases he
        exact lookup_known h _

theorem remoteTransfer_starts {p : Path} {fd : Fd} {buf : Addr} (hp : cl.fdMap fd = some p)
    (h : cl.Known cfg (cfg.host p)) (hbuf : buf ≠ 0) (count : ℕ) (offset : ℤ) (cell : Addr) :
    ∃ r, cl.remoteTransfer cfg true fd buf count offset cell = .ok r := by
  simp only [remoteTransfer, hp]
  split
  · exact ⟨_, rfl⟩
  · rcases genReadRpc_cases cfg ⟨true, .timedOut⟩ cl (cfg.host p) p fd buf count offset cell with
      ⟨-, r, -, hr⟩ | ⟨hn, -⟩
    · simp only at hr
      rw [hr]
      exact ⟨_, rfl⟩
    · exact absurd ⟨⟨h, rfl⟩, hbuf⟩ hn

theorem remoteLseek_starts {p : Path} {fd : Fd} (hp : cl.fdMap fd = some p)
    (h : cl.Known cfg (cfg.host p)) (offset whence : ℤ) :
    ∃ r, cl.ftcRemoteLseek cfg true fd offset whence = .ok r := by
  obtain ⟨addr, ha⟩ := lookup_found_iff.mpr h
  simp only [ftcRemoteLseek, hp, ftcClientCommGenSeekRpc]
  rw [ha]
  exact ⟨_, rfl⟩

theorem finishRead_negative {fd : Fd} {buf : Addr} {count : ℕ} {ret : ℤ} (h : -2 ^ 31 ≤ ret)
    (hneg : ret < 0) : cl.finishRead cfg fd buf count ret =
      transferResult buf ((cl.realRead cfg fd buf count).1,
        int32 (cl.realRead cfg fd buf count).2) := by
  have hint : int32 ret = ret := int32_of_range h (by omega)
  simp only [finishRead, hint, hneg, ↓reduceIte]

/-- A read that the kernel answers. -/
theorem finishRead_here {fd : Fd} {path : Path} {l : ℕ} {b : Bytes}
    (hk : cl.kernel fd = some ⟨path, l⟩) (hb : cfg.files path = some b) (buf : Addr) {count : ℕ}
    (hc : count < 2 ^ 31) {ret : ℤ} (hlow : -2 ^ 31 ≤ ret) (hneg : ret < 0) :
    cl.finishRead cfg fd buf count ret =
      ({ cl with
          kernel := cl.kernel.insert fd ⟨path, l + (slice b l count).length⟩
          memory := cl.memory.store buf (slice b l count) },
        ⟨(slice b l count).length, slice b l count⟩) := by
  have hlen : (slice b l count).length < 2 ^ 31 := Nat.lt_of_le_of_lt (slice_length_le ..) hc
  rw [finishRead_negative hlow hneg]
  simp only [realRead, read_of_open hk hb, transferResult, transferred_some, int32_natCast hlen,
    Option.getD_some, Int.toNat_natCast, Memory.load_store]

/-- A read that the server has answered. -/
theorem finishRead_remote (fd : Fd) {buf : Addr} (count : ℕ) {bytes : Bytes}
    (hlen : bytes.length < 2 ^ 31) (hmem : cl.memory.load buf bytes.length = bytes) :
    cl.finishRead cfg fd buf count bytes.length = (cl, ⟨bytes.length, bytes⟩) := by
  have hint := int32_natCast hlen
  simp only [finishRead, hint, show ¬(bytes.length : ℤ) < 0 by omega, ↓reduceIte,
    transferResult, Int.toNat_natCast, hmem]

theorem finishLseek_tracked {fd : Fd} {path : Path} (h : cl.fdMap fd = some path)
    (offset whence ret : ℤ) : cl.finishLseek cfg fd offset whence ret = (cl, ⟨ret, []⟩) := by
  simp [finishLseek, ftcFileTracked, h]

end FTCache.Client
