import FTCache.Handlers

namespace FTCache.ReadAnswers

open Posix Words Server

/-- What the calls of `ftc_rpc_handler` return: the allocation, `read` on `accessfd` and then
on `localfd`, and `pread`. -/
structure Calls where
  calloc : Bool
  readAccess : Option Bytes
  readLocal : Option Bytes
  pread : Option Bytes

/-- No call returns more than it is asked for. -/
structure Calls.Within (c : Calls) (n : ℕ) : Prop where
  readAccess : ∀ bs ∈ c.readAccess, bs.length ≤ n
  readLocal : ∀ bs ∈ c.readLocal, bs.length ≤ n
  pread : ∀ bs ∈ c.pread, bs.length ≤ n

/-- The responses that come of a handled request once its bulk transfer has completed. -/
def responses : Handled → List ℤ
  | .aborted _ => []
  | .responded _ out => [out]
  | .pushing _ bytes => [ftcRpcHandlerBulkCb bytes]
  | .silent _ => []

section Request

variable (srv : Server) (inp : RpcIn) (c : Calls)

/-- `ftc_rpc_handler` on whatever its calls return. -/
def answer : Handled :=
  if c.calloc then
    if inp.offset = -1 then startTransfer srv inp (c.readAccess <|> c.readLocal)
    else
      match c.pread with
      | none => .responded srv (-1)
      | some bs => startTransfer srv inp (some bs)
  else .aborted .buffer

/-- What the calls bring for a read request, in the mode its offset selects. -/
def obtained : Option Bytes :=
  if inp.offset = -1 then c.readAccess <|> c.readLocal else c.pread

/-- A request whose bytes could not be read gets a negative response and no transfer,
any other the bytes and then their number. -/
def Agrees : Prop :=
  match obtained inp c with
  | none => (answer srv inp c).pushed = none ∧ ∃ out < 0, responses (answer srv inp c) = [out]
  | some bytes => (bytes.length : ℤ) ≤ inp.inputVal ∧
      (answer srv inp c).pushed = some bytes ∧
      responses (answer srv inp c) = [(bytes.length : ℤ)]

/-- There is memory for the buffer, and a sequential request can read one of the two
descriptors that it names. -/
def Answerable : Prop :=
  c.calloc = true ∧ (inp.offset = -1 → c.readAccess.isSome ∨ c.readLocal.isSome)

end Request

section Kernel

variable (srv : Server) (inp : RpcIn) (env : Env)

def kernelCalls : Calls where
  calloc := env.calloc && decide (size64 inp.inputVal < 2 ^ 63)
  readAccess := (srv.sysRead env.firstRead inp.accessfd (size64 inp.inputVal)).1
  readLocal := (srv.sysRead env.secondRead inp.localfd (size64 inp.inputVal)).1
  pread := srv.sysPread env.firstRead inp.accessfd (size64 inp.inputVal) inp.offset

def afterRead : Server :=
  if inp.offset = -1 then { srv with fds := (srv.readSequential inp env).2 } else srv

end Kernel

variable {srv : Server} {inp : RpcIn} {c : Calls} {env : Env}

theorem obtained_length_le (hw : c.Within (size64 inp.inputVal)) {bytes : Bytes}
    (h : obtained inp c = some bytes) : bytes.length ≤ size64 inp.inputVal := by
  unfold obtained at h
  split at h
  · rcases (Option.orElse_eq_some _ _ _).mp h with hread | ⟨-, hread⟩
    · exact hw.readAccess bytes hread
    · exact hw.readLocal bytes hread
  · exact hw.pread bytes h

theorem sequential_isSome (hoff : inp.offset = -1) :
    (obtained inp c).isSome ↔ c.readAccess.isSome ∨ c.readLocal.isSome := by
  rw [obtained, if_pos hoff]
  cases c.readAccess <;> simp

section Allocated

variable (hcalloc : c.calloc = true) (hsize : size64 inp.inputVal < 2 ^ 63)
include hcalloc hsize

theorem answer_obtained (hfit : size64 inp.inputVal ≤ inp.bulkSize)
    (hw : c.Within (size64 inp.inputVal)) {bytes : Bytes} (h : obtained inp c = some bytes) :
    answer srv inp c = .pushing srv bytes := by
  have hpush : startTransfer srv inp (some bytes) = .pushing srv bytes :=
    startTransfer_some hfit (obtained_length_le hw h) hsize
  unfold obtained at h
  rw [answer, if_pos hcalloc]
  split
  case isTrue hoff =>
    rw [if_pos hoff] at h
    rw [h, hpush]
  case isFalse hoff =>
    rw [if_neg hoff] at h
    simp only [h, hpush]

/-- A positional request that fails is refused, a sequential one stops the server. -/
theorem answer_failed (h : obtained inp c = none) : answer srv inp c =
    if inp.offset = -1 then .aborted .bulkTransfer else .responded srv (-1) := by
  unfold obtained at h
  rw [answer, if_pos hcalloc]
  split
  case isTrue hoff =>
    rw [if_pos hoff] at h
    rw [h]
    exact startTransfer_none hsize
  case isFalse hoff =>
    rw [if_neg hoff] at h
    simp only [h]

end Allocated

/-- A read request is answered alike in both modes exactly when its buffer can be had
and a sequential one finds a descriptor that can be read. -/
theorem read_answers_agree (srv : Server) (inp : RpcIn) (c : Calls) (h₀ : 0 ≤ inp.inputVal)
    (h₃₁ : inp.inputVal < 2 ^ 31) (hbulk : inp.inputVal ≤ inp.bulkSize)
    (hw : c.Within (size64 inp.inputVal)) : Agrees srv inp c ↔ Answerable inp c := by
  have hval := size64_of_nonneg h₀ (by omega)
  have hsize : size64 inp.inputVal < 2 ^ 63 := by omega
  cases hcalloc : c.calloc with
  | false =>
    have hstop : answer srv inp c = .aborted .buffer := by simp [answer, hcalloc]
    refine iff_of_false ?_ (by simp [Answerable, hcalloc])
    unfold Agrees
    rw [hstop]
    cases obtained inp c <;> simp [responses, Handled.pushed]
  | true =>
    cases h : obtained inp c with
    | some bytes =>
      have hs : answer srv inp c = .pushing srv bytes :=
        answer_obtained hcalloc hsize (by omega) hw h
      have hlen := obtained_length_le hw h
      have hret : int32 (bytes.length : ℤ) = bytes.length := int32_natCast (by omega)
      refine iff_of_true ?_ ⟨hcalloc, fun hoff ↦ ?_⟩
      · simp only [Agrees, h, hs, responses, ftcRpcHandlerBulkCb, hret, Handled.pushed]
        exact ⟨by omega, trivial, trivial⟩
      · exact (sequential_isSome hoff).mp (by simp [h])
    | none =>
      have hs : answer srv inp c =
          if inp.offset = -1 then .aborted .bulkTransfer else .responded srv (-1) :=
        answer_failed hcalloc hsize h
      by_cases hoff : inp.offset = -1
      · rw [if_pos hoff] at hs
        refine iff_of_false ?_ fun ha ↦ ?_
        · simp [Agrees, h, hs, responses]
        · have hsome := (sequential_isSome hoff).mpr (ha.2 hoff)
          simp [h] at hsome
      · rw [if_neg hoff] at hs
        refine iff_of_true ?_ ⟨hcalloc, fun he ↦ absurd he hoff⟩
        simp only [Agrees, h, hs, responses, Handled.pushed]
        exact ⟨trivial, -1, by omega, rfl⟩

section Connection

theorem kernelCalls_within (srv : Server) (inp : RpcIn) (env : Env) :
    (kernelCalls srv inp env).Within (size64 inp.inputVal) :=
  ⟨fun _ h ↦ sysRead_length_le h, fun _ h ↦ sysRead_length_le h, fun _ h ↦ sysPread_length_le h⟩

theorem readSequential_fst (srv : Server) (inp : RpcIn) (env : Env) :
    (srv.readSequential inp env).1 =
      ((kernelCalls srv inp env).readAccess <|> (kernelCalls srv inp env).readLocal) := by
  unfold readSequential kernelCalls
  split
  case h_1 bs fds he => simp [he]
  case h_2 fds he => simp [he]

/-- The server's handler is this one on the calls its kernel answers. -/
theorem ftcRpcHandler_eq (srv : Server) (inp : RpcIn) (env : Env) : srv.ftcRpcHandler inp env =
    answer (afterRead srv inp env) inp (kernelCalls srv inp env) := by
  have hcalloc : (kernelCalls srv inp env).calloc = true ↔
      env.calloc = true ∧ size64 inp.inputVal < 2 ^ 63 := by simp [kernelCalls]
  unfold ftcRpcHandler answer afterRead
  simp only [hcalloc]
  split
  case isFalse => rfl
  case isTrue =>
    split
    case isTrue => rw [readSequential_fst]
    case isFalse => rfl

/-- A read request stops its server exactly if it cannot be answered. -/
theorem handler_aborts_iff
    (hfit : size64 inp.inputVal < 2 ^ 63 → size64 inp.inputVal ≤ inp.bulkSize) :
    (∃ e, srv.ftcRpcHandler inp env = .aborted e) ↔
      ¬Answerable inp (kernelCalls srv inp env) := by
  rw [ftcRpcHandler_eq]
  cases hcalloc : (kernelCalls srv inp env).calloc with
  | false => simp [answer, Answerable, hcalloc]
  | true =>
    have hsize : size64 inp.inputVal < 2 ^ 63 := by simp_all [kernelCalls]
    cases h : obtained inp (kernelCalls srv inp env) with
    | some bytes =>
      rw [answer_obtained hcalloc hsize (hfit hsize) (kernelCalls_within ..) h]
      refine iff_of_false (by simp) (not_not.mpr ⟨hcalloc, fun hoff ↦ ?_⟩)
      exact (sequential_isSome hoff).mp (by simp [h])
    | none =>
      rw [answer_failed hcalloc hsize h]
      by_cases hoff : inp.offset = -1
      · simp [Answerable, hoff, ← sequential_isSome hoff, h]
      · simp [Answerable, hoff, hcalloc]

end Connection

def openServer : Server :=
  { Server.start sampleConfig.files fun _ ↦ none with
    fds := PMap.insert (fun _ ↦ none) 7 ⟨samplePath, 2⟩ }

theorem read_answers_agree_open : (0 : ℤ) ≤ 4 ∧ (4 : ℤ) < 2 ^ 31 ∧
    Agrees openServer ⟨4, 4, 7, 3, -1⟩ (kernelCalls openServer ⟨4, 4, 7, 3, -1⟩ {}) := by
  refine ⟨by omega, by omega, ?_⟩
  refine (read_answers_agree openServer ⟨4, 4, 7, 3, -1⟩
    (kernelCalls openServer ⟨4, 4, 7, 3, -1⟩ {}) (by simp) (by simp) (by simp)
    (kernelCalls_within ..)).mpr ?_
  exact ⟨by decide +kernel, fun _ ↦ .inl (by decide +kernel)⟩

/-- With the server's descriptor closed, a sequential request stops the server that a
positional one gets -1 from. -/
theorem read_answers_differ :
    ¬(∀ (srv : Server) (inp : RpcIn) (c : Calls), 0 ≤ inp.inputVal → inp.inputVal < 2 ^ 31 →
      inp.inputVal ≤ inp.bulkSize → c.Within (size64 inp.inputVal) → Agrees srv inp c) ∧
    responses (openServer.ftcRpcHandler ⟨4, 4, 8, 3, 0⟩ {}) = [-1] ∧
    responses (openServer.ftcRpcHandler ⟨4, 4, 8, 3, -1⟩ {}) = [] := by
  have hpos : responses (openServer.ftcRpcHandler ⟨4, 4, 8, 3, 0⟩ {}) = [-1] := by
    decide +kernel
  have hseq : responses (openServer.ftcRpcHandler ⟨4, 4, 8, 3, -1⟩ {}) = [] := by
    decide +kernel
  refine ⟨fun h ↦ ?_, hpos, hseq⟩
  have hall := h (afterRead openServer ⟨4, 4, 8, 3, -1⟩ {}) ⟨4, 4, 8, 3, -1⟩
    (kernelCalls openServer ⟨4, 4, 8, 3, -1⟩ {}) (by simp) (by simp) (by simp)
    (kernelCalls_within ..)
  have hnone : obtained ⟨4, 4, 8, 3, -1⟩ (kernelCalls openServer ⟨4, 4, 8, 3, -1⟩ {}) = none := by
    decide +kernel
  rw [ftcRpcHandler_eq] at hseq
  simp [Agrees, hnone, hseq] at hall

end FTCache.ReadAnswers
