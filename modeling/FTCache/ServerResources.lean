import FTCache.Handlers
import FTCache.Library.Pools
import FTCache.Library.Runs
import Mathlib.Tactic.Abel

/-! What the handlers of a server acquire, and what becomes of it. -/

namespace FTCache.ServerResources

open Pools Runs Words Posix

/-- A block of the allocator, or what Mercury hands out: the handle of a request, its
decoded input and a bulk handle. -/
inductive Res
  | block (address : ℕ)
  | handle (id : ℕ)
  | input (id : ℕ)
  | bulk (id : ℕ)
  deriving DecidableEq

/-- What allocator and Mercury hand out while one request is handled. -/
structure Grants where
  handle : ℕ
  input : ℕ
  state : ℕ
  buffer : ℕ
  bulk : ℕ

/-- Which of the calls that a handler makes succeed. -/
structure Answers where
  getInput : Bool := true
  getInfo : Bool := true
  calloc : Bool := true
  bulkCreate : Bool := true
  pread : Bool := true
  bulkTransfer : Bool := true
  close : Bool := true

/-- The pointers of `struct ftc_rpc_state`, which the transfer callback is given. -/
structure Transfer where
  state : ℕ
  buffer : ℕ
  handle : ℕ
  bulk : ℕ
  deriving DecidableEq

def Transfer.owns (t : Transfer) : Multiset Res :=
  .bulk t.bulk ::ₘ .handle t.handle ::ₘ .block t.buffer ::ₘ {.block t.state}

def Grants.transfer (g : Grants) : Transfer := ⟨g.state, g.buffer, g.handle, g.bulk⟩

def Grants.all (g : Grants) : Multiset Res := .input g.input ::ₘ g.transfer.owns

inductive Ending
  | aborted
  | returned
  | responded
  | pushing (t : Transfer)
  deriving DecidableEq

/-- The end of `ftc_rpc_handler`, from the call of `read` or `pread` on. -/
def readAndPush (inp : RpcIn) (g : Grants) (a : Answers) : Code Res Ending := do
  use (.input g.input)
  use (.block g.buffer)
  if inp.offset = -1 ∨ a.pread then
    use (.bulk g.bulk)
    if a.bulkTransfer then pure (.pushing g.transfer) else pure .aborted
  else
    release (.bulk g.bulk)
    release (.block g.buffer)
    use (.handle g.handle)
    release (.block g.state)
    pure .responded

/-- `ftc_rpc_handler`, where the call `malloc(sizeof(*ftc_rpc_state_p))` succeeds. -/
def ftcRpcHandler (inp : RpcIn) (g : Grants) (a : Answers) : Code Res Ending := do
  acquire (.block g.state)
  use (.handle g.handle)
  use (.block g.state)
  if a.getInput then
    acquire (.input g.input)
    if a.calloc then
      acquire (.block g.buffer)
      use (.block g.state)
      use (.handle g.handle)
      if a.getInfo then
        if a.bulkCreate then
          acquire (.bulk g.bulk)
          readAndPush inp g a
        else pure .aborted
      else pure .returned
    else pure .aborted
  else
    release (.block g.state)
    pure .returned

/-- The end of each branch of `ftc_rpc_handler_bulk_cb`. -/
def Transfer.free (t : Transfer) : Code Res Unit := do
  use (.block t.state)
  release (.bulk t.bulk)
  use (.block t.state)
  release (.handle t.handle)
  use (.block t.state)
  release (.block t.buffer)
  release (.block t.state)

/-- `ftc_rpc_handler_bulk_cb` and whether it returns 0. -/
def ftcRpcHandlerBulkCb (t : Transfer) (pushed responds : Bool) : Code Res Bool := do
  use (.block t.state)
  if pushed then
    use (.handle t.handle)
    if responds then
      t.free
      pure true
    else
      t.free
      pure false
  else
    t.free
    pure false

def ftcOpenRpcHandler (g : Grants) (a : Answers) : Code Res Ending := do
  use (.handle g.handle)
  if a.getInput then
    acquire (.input g.input)
    use (.handle g.handle)
    if a.getInfo then
      use (.input g.input)
      use (.handle g.handle)
      pure .responded
    else pure .returned
  else pure .aborted

def ftcCloseRpcHandler (g : Grants) (a : Answers) : Code Res Ending := do
  use (.handle g.handle)
  if a.getInput then
    acquire (.input g.input)
    use (.handle g.handle)
    use (.input g.input)
    if a.getInfo then
      if a.close then pure .returned else pure .aborted
    else pure .returned
  else pure .aborted

def ftcSeekRpcHandler (g : Grants) (a : Answers) : Code Res Ending := do
  use (.handle g.handle)
  if a.getInput then
    acquire (.input g.input)
    use (.input g.input)
    use (.handle g.handle)
    pure .responded
  else pure .aborted

def handler (g : Grants) (a : Answers) : Request → Code Res Ending
  | .openRpc _ => ftcOpenRpcHandler g a
  | .baseRpc inp => ftcRpcHandler inp g a
  | .seekRpc _ => ftcSeekRpcHandler g a
  | .closeRpc _ => ftcCloseRpcHandler g a

/-- What the handler of a request leaves to no one. -/
def leaves (g : Grants) (a : Answers) : Request → Multiset Res
  | .baseRpc inp =>
    if a.getInput then
      if a.getInfo then
        if inp.offset = -1 ∨ a.pread then {.input g.input}
        else .input g.input ::ₘ {.handle g.handle}
      else .input g.input ::ₘ .handle g.handle ::ₘ .block g.buffer ::ₘ {.block g.state}
    else {.handle g.handle}
  | _ => .input g.input ::ₘ {.handle g.handle}

def Ending.owns : Ending → Multiset Res
  | .pushing t => t.owns
  | _ => 0

def ending (g : Grants) (a : Answers) : Request → Ending
  | .openRpc _ => if a.getInput then if a.getInfo then .responded else .returned else .aborted
  | .seekRpc _ => if a.getInput then .responded else .aborted
  | .closeRpc _ =>
    if a.getInput then if a.getInfo ∧ ¬a.close then .aborted else .returned else .aborted
  | .baseRpc inp =>
    if a.getInput then
      if a.calloc then
        if a.getInfo then
          if a.bulkCreate then
            if inp.offset = -1 ∨ a.pread then
              if a.bulkTransfer then .pushing g.transfer else .aborted
            else .responded
          else .aborted
        else .returned
      else .aborted
    else .returned

theorem leaves_le (g : Grants) (a : Answers) (r : Request) : leaves g a r ≤ g.all := by
  have hpair : .input g.input ::ₘ {.handle g.handle} ≤ g.all := by
    refine Multiset.cons_le_cons _ (Multiset.singleton_le.mpr ?_)
    simp [Transfer.owns, Grants.transfer]
  cases r with
  | openRpc inp => exact hpair
  | seekRpc inp => exact hpair
  | closeRpc inp => exact hpair
  | baseRpc inp =>
    simp only [leaves]
    split
    · split
      · split
        · exact Multiset.singleton_le.mpr (Multiset.mem_cons_self _ _)
        · exact hpair
      · exact Multiset.cons_le_cons _ (Multiset.le_cons_self _ _)
    · exact Multiset.singleton_le.mpr (by simp [Grants.all, Transfer.owns, Grants.transfer])

section Specs

variable {g : Grants} {a : Answers} {r : Request} {own : Multiset Res}

/-- The handler comes to its end `e`. What it has acquired is owned by the transfer it
started, or is left behind. -/
structure Ended (g : Grants) (a : Answers) (r : Request) (e : Ending) (own : Multiset Res) :
    Prop where
  ending : e = ending g a r
  owned : e ≠ .aborted → own = e.owns + leaves g a r
  granted : e ≠ .aborted → own ≤ g.all

theorem Ended.of_aborted (he : ServerResources.ending g a r = .aborted) :
    Ended g a r .aborted own :=
  ⟨he.symm, fun hne ↦ absurd rfl hne, fun hne ↦ absurd rfl hne⟩

theorem Ended.of_leaves {e : Ending} (he : ServerResources.ending g a r = e) (howns : e.owns = 0)
    (hown : own = leaves g a r) : Ended g a r e own := by
  refine ⟨he.symm, fun _ ↦ ?_, fun _ ↦ hown ▸ leaves_le g a r⟩
  rw [howns, zero_add, hown]

theorem ftcSeekRpcHandler_ends (g : Grants) (a : Answers) (inp : SeekIn) :
    Meets {.handle g.handle} (ftcSeekRpcHandler g a) (Ended g a (.seekRpc inp)) := by
  refine .use (by simp) (.ite (fun h ↦ ?_) (fun h ↦ ?_))
  · refine .acquire (.use (by simp) (.use (by simp) (.pure ?_)))
    exact .of_leaves (by simp [ending, h]) rfl rfl
  · exact .pure (.of_aborted (by simp [ending, h]))

theorem ftcOpenRpcHandler_ends (g : Grants) (a : Answers) (inp : OpenIn) :
    Meets {.handle g.handle} (ftcOpenRpcHandler g a) (Ended g a (.openRpc inp)) := by
  refine .use (by simp) (.ite (fun h ↦ ?_) (fun h ↦ ?_))
  · refine .acquire (.use (by simp) (.ite (fun hi ↦ ?_) (fun hi ↦ ?_)))
    · refine .use (by simp) (.use (by simp) (.pure ?_))
      exact .of_leaves (by simp [ending, h, hi]) rfl rfl
    · exact .pure (.of_leaves (by simp [ending, h, hi]) rfl rfl)
  · exact .pure (.of_aborted (by simp [ending, h]))

theorem ftcCloseRpcHandler_ends (g : Grants) (a : Answers) (inp : CloseIn) :
    Meets {.handle g.handle} (ftcCloseRpcHandler g a) (Ended g a (.closeRpc inp)) := by
  refine .use (by simp) (.ite (fun h ↦ ?_) (fun h ↦ ?_))
  · refine .acquire (.use (by simp) (.use (by simp) (.ite (fun hi ↦ .ite (fun hc ↦ ?_)
      (fun hc ↦ ?_)) (fun hi ↦ ?_))))
    · exact .pure (.of_leaves (by simp [ending, h, hc]) rfl rfl)
    · exact .pure (.of_aborted (by simp [ending, h, hi, hc]))
    · exact .pure (.of_leaves (by simp [ending, h, hi]) rfl rfl)
  · exact .pure (.of_aborted (by simp [ending, h]))

/-- What `ftc_rpc_handler` holds once it has registered its buffer. -/
def Grants.registered (g : Grants) : Multiset Res :=
  .bulk g.bulk ::ₘ .block g.buffer ::ₘ .input g.input ::ₘ .block g.state ::ₘ {.handle g.handle}

theorem registered_eq (g : Grants) : g.registered = g.transfer.owns + {.input g.input} := by
  simp only [Grants.registered, Transfer.owns, Grants.transfer, ← Multiset.singleton_add]
  abel

theorem readAndPush_ends (inp : RpcIn) (hi : a.getInput) (hc : a.calloc) (hg : a.getInfo)
    (hb : a.bulkCreate) :
    Meets g.registered (readAndPush inp g a) (Ended g a (.baseRpc inp)) := by
  refine .use (by simp [Grants.registered]) (.use (by simp [Grants.registered])
    (.ite (fun hr ↦ ?_) (fun hr ↦ ?_)))
  · refine .use (by simp [Grants.registered]) (.ite (fun ht ↦ .pure ?_) (fun ht ↦ .pure ?_))
    · have hl : leaves g a (.baseRpc inp) = {.input g.input} := by simp [leaves, hi, hg, hr]
      refine ⟨by simp [ending, hi, hc, hg, hb, hr, ht], fun _ ↦ ?_, fun _ ↦ ?_⟩
      · rw [hl]
        exact registered_eq g
      · rw [registered_eq, Multiset.add_comm, Multiset.singleton_add]
        exact le_rfl
    · exact .of_aborted (by simp [ending, hi, hc, hg, hb, hr, ht])
  · refine .release rfl (.release rfl (.use (by simp) (.release (Multiset.cons_swap _ _ _)
      (.pure ?_))))
    exact .of_leaves (by simp [ending, hi, hc, hg, hb, hr]) rfl (by simp [leaves, hi, hg, hr])

theorem ftcRpcHandler_ends (g : Grants) (a : Answers) (inp : RpcIn) :
    Meets {.handle g.handle} (ftcRpcHandler inp g a) (Ended g a (.baseRpc inp)) := by
  refine .acquire (.use (by simp) (.use (by simp) (.ite (fun hi ↦ .acquire ?_) (fun hi ↦ ?_))))
  · refine .ite (fun hc ↦ ?_) (fun hc ↦ ?_)
    · refine .acquire (.use (by simp) (.use (by simp) (.ite (fun hg ↦ ?_) (fun hg ↦ ?_))))
      · refine .ite (fun hb ↦ .acquire (readAndPush_ends inp hi hc hg hb)) (fun hb ↦ ?_)
        exact .pure (.of_aborted (by simp [ending, hi, hc, hg, hb]))
      · refine .pure (.of_leaves (by simp [ending, hi, hc, hg]) rfl ?_)
        have hl : leaves g a (.baseRpc inp) = .input g.input ::ₘ .handle g.handle ::ₘ
            .block g.buffer ::ₘ {.block g.state} := by simp [leaves, hi, hg]
        rw [hl]
        simp only [← Multiset.singleton_add]
        abel
    · exact .pure (.of_aborted (by simp [ending, hi, hc]))
  · exact .release rfl (.pure (.of_leaves (by simp [ending, hi]) rfl (by simp [leaves, hi])))

theorem handler_ends (g : Grants) (a : Answers) (r : Request) :
    Meets {.handle g.handle} (handler g a r) (Ended g a r) := by
  cases r with
  | openRpc inp => exact ftcOpenRpcHandler_ends g a inp
  | baseRpc inp => exact ftcRpcHandler_ends g a inp
  | seekRpc inp => exact ftcSeekRpcHandler_ends g a inp
  | closeRpc inp => exact ftcCloseRpcHandler_ends g a inp

theorem Transfer.free_yields (t : Transfer) : Yields t.owns t.free () 0 :=
  .bind (.use (by simp [owns])) (.bind (.release rfl) (.bind (.use (by simp))
    (.bind (.release rfl) (.bind (.use (by simp)) (.bind (.release rfl) (.release rfl))))))

/-- However the push and the response went, the callback releases all that it was given. -/
theorem ftcRpcHandlerBulkCb_yields (t : Transfer) (pushed responds : Bool) :
    Yields t.owns (ftcRpcHandlerBulkCb t pushed responds) (pushed && responds) 0 := by
  have hstate : .block t.state ∈ t.owns := by simp [Transfer.owns]
  have hhandle : .handle t.handle ∈ t.owns := by simp [Transfer.owns]
  unfold ftcRpcHandlerBulkCb
  refine .bind (.use hstate) ?_
  cases pushed with
  | false => exact .bind t.free_yields (.pure _ _)
  | true =>
    refine .bind (.use hhandle) ?_
    cases responds with
    | false => exact .bind t.free_yields (.pure _ _)
    | true => exact .bind t.free_yields (.pure _ _)

end Specs

section Handled

/-- How many bytes `ftc_rpc_handler` has read when it starts the transfer. -/
def readbytes (srv : Server) (env : Env) (inp : RpcIn) : Option Bytes :=
  if inp.offset = -1 then (srv.readSequential inp env).1
  else srv.sysPread env.firstRead inp.accessfd (size64 inp.inputVal) inp.offset

/-- What the calls of a handler answer when Mercury itself fails at nothing. -/
def answers (srv : Server) (env : Env) : Request → Answers
  | .baseRpc inp =>
    let size := size64 (transferred (readbytes srv env inp))
    { calloc := env.calloc ∧ size64 inp.inputVal < 2 ^ 63
      pread := (readbytes srv env inp).isSome
      bulkTransfer := size ≤ inp.bulkSize ∧ size ≤ size64 inp.inputVal }
  | .closeRpc inp => { close := (srv.fds inp.fd).isSome ∧ env.closed }
  | _ => {}

def Ending.Agrees : Ending → Handled → Prop
  | .aborted, .aborted _ => True
  | .returned, .silent _ => True
  | .responded, .responded _ _ => True
  | .pushing _, .pushing _ _ => True
  | _, _ => False

theorem startTransfer_agrees (srv : Server) (inp : RpcIn) (r : Option Bytes) (g : Grants) :
    Ending.Agrees (if size64 (transferred r) ≤ inp.bulkSize ∧
        size64 (transferred r) ≤ size64 inp.inputVal then .pushing g.transfer else .aborted)
      (Server.startTransfer srv inp r) := by
  simp only [Server.startTransfer]
  split
  · exact trivial
  · exact trivial

/-- The handlers come to the same ends here as in the model of their effects. -/
theorem handle_agrees (srv : Server) (env : Env) (r : Request) (g : Grants) :
    (ending g (answers srv env r) r).Agrees (srv.handle r env) := by
  cases r with
  | openRpc inp => exact trivial
  | seekRpc inp => exact trivial
  | closeRpc inp =>
    simp only [Server.handle, Server.ftcCloseRpcHandler]
    split
    case isTrue h => simp [ending, answers, h, Ending.Agrees]
    case isFalse h =>
      have hc : ¬((answers srv env (.closeRpc inp)).close = true) := by simpa [answers] using h
      have he : ending g (answers srv env (.closeRpc inp)) (.closeRpc inp) = .aborted := by
        simp only [ending]
        exact (if_pos rfl).trans (if_pos ⟨rfl, hc⟩)
      rw [he]
      exact trivial
  | baseRpc inp =>
    have hend : ending g (answers srv env (.baseRpc inp)) (.baseRpc inp) =
        if env.calloc ∧ size64 inp.inputVal < 2 ^ 63 then
          if inp.offset = -1 ∨ (readbytes srv env inp).isSome then
            if size64 (transferred (readbytes srv env inp)) ≤ inp.bulkSize ∧
                size64 (transferred (readbytes srv env inp)) ≤ size64 inp.inputVal then
              .pushing g.transfer
            else .aborted
          else .responded
        else .aborted := by
      simp [ending, answers]
    rw [hend]
    simp only [Server.handle, Server.ftcRpcHandler]
    by_cases hc : env.calloc ∧ size64 inp.inputVal < 2 ^ 63
    · rw [if_pos hc, if_pos hc]
      by_cases ho : inp.offset = -1
      · rw [if_pos (.inl ho), if_pos ho]
        simp only [readbytes, ho, ↓reduceIte]
        exact startTransfer_agrees _ inp _ g
      · have hr : readbytes srv env inp =
            srv.sysPread env.firstRead inp.accessfd (size64 inp.inputVal) inp.offset :=
          if_neg ho
        rw [if_neg ho, hr]
        cases hp : srv.sysPread env.firstRead inp.accessfd (size64 inp.inputVal) inp.offset with
        | none => simp [ho, Ending.Agrees]
        | some bs =>
          rw [if_pos (.inr rfl)]
          exact startTransfer_agrees _ inp _ g
    · rw [if_neg hc, if_neg hc]
      exact trivial

end Handled

inductive Status
  | running
  | aborted
  | misused
  deriving DecidableEq

/-- A server process: what is alive in it, and its transfers that have not completed.
It is misused once a handler used or released what is not alive. -/
structure Process where
  live : Multiset Res := 0
  pending : Multiset Transfer := 0
  status : Status := .running

inductive Label
  | request (r : Request) (g : Grants) (a : Answers)
  | completed (t : Transfer) (pushed responds : Bool)

def Label.isRequest : Label → Bool
  | .request .. => true
  | .completed .. => false

def Label.leaves : Label → Multiset Res
  | .request r g a => ServerResources.leaves g a r
  | .completed .. => 0

namespace Process

variable {s s' : Process} {l : Label}

/-- Allocator and Mercury hand out what is not alive, and nothing twice. -/
def Offers (s : Process) (g : Grants) : Prop := (g.all + s.live).Nodup

instance (s : Process) (g : Grants) : Decidable (s.Offers g) :=
  inferInstanceAs (Decidable (g.all + s.live).Nodup)

def settle (s : Process) (live : Multiset Res) : Ending → Process
  | .aborted => { s with live, status := .aborted }
  | .returned => { s with live }
  | .responded => { s with live }
  | .pushing t => { s with live, pending := t ::ₘ s.pending }

def step (s : Process) : Label → Option Process
  | .request r g a =>
    if s.status = .running ∧ s.Offers g then
      match (handler g a r).run (.handle g.handle ::ₘ s.live) with
      | none => some { s with status := .misused }
      | some (e, live) => some (s.settle live e)
    else none
  | .completed t pushed responds =>
    if s.status = .running ∧ t ∈ s.pending then
      match (ftcRpcHandlerBulkCb t pushed responds).run s.live with
      | none => some { s with status := .misused }
      | some (_, live) => some { s with live, pending := s.pending.erase t }
    else none

/-- Nothing was misused, nothing is alive twice, and all that is alive is accounted for. -/
structure Sound (left : Multiset Res) (s : Process) : Prop where
  kept : s.status ≠ .misused
  nodup : s.status = .running → s.live.Nodup
  accounted : s.status = .running → Accounted Transfer.owns s.pending left s.live

theorem sound_settle {left own : Multiset Res} {g : Grants} {a : Answers} {r : Request}
    {e : Ending} (h : Sound left s) (hrun : s.status = .running) (hf : s.Offers g)
    (hend : Ended g a r e own) :
    Sound (leaves g a r + left) (s.settle (own + s.live) e) := by
  have hacc := (h.accounted hrun).leaves (leaves g a r)
  have hnodup (he : e ≠ .aborted) : (own + s.live).Nodup :=
    Multiset.nodup_of_le (add_le_add_left (hend.granted he) _) hf
  have hown := hend.owned
  clear hend
  cases e with
  | aborted => exact ⟨by simp [settle], by simp [settle], by simp [settle]⟩
  | returned =>
    refine ⟨h.kept, fun _ ↦ hnodup (by simp), fun _ ↦ ?_⟩
    simpa [settle, hown, Ending.owns] using hacc
  | responded =>
    refine ⟨h.kept, fun _ ↦ hnodup (by simp), fun _ ↦ ?_⟩
    simpa [settle, hown, Ending.owns] using hacc
  | pushing t =>
    refine ⟨h.kept, fun _ ↦ hnodup (by simp), fun _ ↦ ?_⟩
    simpa [settle, hown, Ending.owns, add_assoc] using hacc.begins t

theorem step_sound {left : Multiset Res} (h : Sound left s) (hs : s.step l = some s') :
    Sound (l.leaves + left) s' := by
  cases l with
  | request r g a =>
    simp only [step] at hs
    split at hs
    case isTrue hg =>
      obtain ⟨e, own, hy, hend⟩ := handler_ends g a r
      have hrun := hy s.live
      rw [Multiset.singleton_add] at hrun
      rw [hrun] at hs
      cases hs
      exact sound_settle h hg.1 hg.2 hend
    case isFalse => cases hs
  | completed t pushed responds =>
    simp only [step] at hs
    split at hs
    case isTrue hg =>
      obtain ⟨rest, hlive, hrest⟩ := (h.accounted hg.1).ends hg.2
      have hrun := ftcRpcHandlerBulkCb_yields t pushed responds rest
      rw [← hlive, zero_add] at hrun
      rw [hrun] at hs
      cases hs
      refine ⟨h.kept, fun hr ↦ ?_, fun _ ↦ ?_⟩
      · exact Multiset.nodup_of_le (hlive ▸ Multiset.le_add_left _ _) (h.nodup hr)
      · simpa [Label.leaves] using hrest
    case isFalse => cases hs

theorem exec_sound {left : Multiset Res} {ls : List Label} (h : Sound left s)
    (hs : exec step s ls = some s') : Sound ((ls.map Label.leaves).sum + left) s' := by
  induction ls generalizing s left with
  | nil =>
    cases hs
    simpa using h
  | cons l ls ih =>
    obtain ⟨t, ht, hs⟩ := Option.bind_eq_some_iff.mp hs
    have hend := ih (step_sound h ht) hs
    rwa [List.map_cons, List.sum_cons, add_comm l.leaves, add_assoc]

theorem leaves_card (g : Grants) (a : Answers) (r : Request) :
    1 ≤ Multiset.card (leaves g a r) := by
  cases r with
  | openRpc inp => simp [leaves]
  | seekRpc inp => simp [leaves]
  | closeRpc inp => simp [leaves]
  | baseRpc inp =>
    simp only [leaves]
    split
    · split
      · split <;> simp
      · simp
    · simp

theorem countP_le_card (ls : List Label) :
    ls.countP Label.isRequest ≤ Multiset.card (ls.map Label.leaves).sum := by
  induction ls with
  | nil => simp
  | cons l ls ih =>
    rw [List.map_cons, List.sum_cons, Multiset.card_add]
    cases l with
    | request r g a =>
      have hone := leaves_card g a r
      simp only [List.countP_cons, Label.isRequest, Label.leaves, ↓reduceIte]
      omega
    | completed t pushed responds =>
      simpa [Label.isRequest, Label.leaves] using ih

/-- In no run of a server is a block, a handle or a bulk handle used or released once it
is gone, or released twice. What is alive is what the transfers own that have not
completed, with what the requests left behind: at least one resource for each of them,
which nothing ever releases. -/
theorem resources_accounted (ls : List Label) (s : Process) (h : exec step {} ls = some s) :
    s.status ≠ .misused ∧ (s.status = .running → s.live.Nodup ∧
      s.live = (s.pending.map Transfer.owns).sum + (ls.map Label.leaves).sum ∧
      ls.countP Label.isRequest ≤ Multiset.card s.live) := by
  have hstart : Sound 0 ({} : Process) :=
    ⟨by simp, fun _ ↦ Multiset.nodup_zero, fun _ ↦ by simp [Accounted]⟩
  have hend := exec_sound hstart h
  refine ⟨hend.kept, fun hrun ↦ ?_⟩
  have hlive : s.live = (s.pending.map Transfer.owns).sum + (ls.map Label.leaves).sum := by
    simpa [Accounted] using hend.accounted hrun
  refine ⟨hend.nodup hrun, hlive, ?_⟩
  rw [hlive, Multiset.card_add]
  exact (countP_le_card ls).trans (Nat.le_add_left _ _)

/-- A read is pushed while an open is handled, and a read of a closed descriptor fails. -/
def sampleRun : List Label :=
  [.request (.baseRpc ⟨4, 4, 5, 3, -1⟩) ⟨0, 0, 10, 11, 0⟩ {},
    .request (.openRpc ⟨samplePath, 3⟩) ⟨1, 1, 12, 13, 1⟩ {},
    .completed ⟨10, 11, 0, 0⟩ true true,
    .request (.baseRpc ⟨4, 4, 5, 3, 0⟩) ⟨0, 2, 10, 11, 0⟩ { pread := false }]

theorem resources_accounted_sample :
    ∃ s, exec step {} sampleRun = some s ∧ s.status = .running ∧
      sampleRun.countP Label.isRequest ≤ Multiset.card s.live := by
  have hrun : (exec step {} sampleRun).any (fun s ↦ s.status = .running) = true := by
    decide +kernel
  obtain ⟨s, hs, hrunning⟩ := (Option.any_eq_true _ _).mp hrun
  have hstatus : s.status = .running := by simpa using hrunning
  exact ⟨s, hs, hstatus, ((resources_accounted sampleRun s hs).2 hstatus).2.2⟩

end Process

end FTCache.ServerResources
