import FTCache.Client
import FTCache.Library.Pools
import FTCache.Library.Runs
import Mathlib.Tactic.Abel

/-! What the calls and the callbacks of a client acquire, and what becomes of it. -/

namespace FTCache.ClientResources

open Pools Runs Words Client

/-- A block of the allocator, what Mercury hands out, or the stack frame of a call.
The reply of a request is known by its handle. -/
inductive Res
  | block (address : ℕ)
  | addr (id : ℕ)
  | handle (id : ℕ)
  | bulk (id : ℕ)
  | output (handle : ℕ)
  | frame (call : ℕ)
  deriving DecidableEq

/-- What allocator and Mercury hand out during one call. -/
structure Grants where
  state : ℕ
  path : ℕ
  addr : ℕ
  handle : ℕ
  bulk : ℕ

/-- What a call finds out. -/
structure Answers where
  tracked : Bool := true
  overLimit : Bool := false
  buffer : Bool := true
  createHandle : Bool := true
  getInfo : Bool := true
  bulkCreate : Bool := true
  forward : Bool := true

/-- What is still to happen: a callback, with the state it is given, or the return
of a blocked call. -/
inductive Task
  | openCb (state handle frame : ℕ)
  | readCb (state bulk handle frame : ℕ)
  | seekCb (handle : ℕ)
  | blocked (frame : ℕ)
  deriving DecidableEq

def Task.owns : Task → Multiset Res
  | .openCb state handle _ => .handle handle ::ₘ {.block state}
  | .readCb state bulk handle _ => .bulk bulk ::ₘ .handle handle ::ₘ {.block state}
  | .seekCb handle => {.handle handle}
  | .blocked frame => {.frame frame}

inductive Ending
  | aborted
  | returned
  | waiting (tasks : List Task)
  deriving DecidableEq

def openTasks (frame : ℕ) (g : Grants) : List Task :=
  [.openCb g.state g.handle frame, .blocked frame]

def readTasks (frame : ℕ) (g : Grants) : List Task :=
  [.readCb g.state g.bulk g.handle frame, .blocked frame]

section Calls

variable (frame : ℕ) (g : Grants) (a : Answers)

/-- `ftc_client_comm_gen_open_rpc` and `ftc_client_block`, up to its wait. -/
def genOpenRpc : Code Res Ending := do
  acquire (.addr g.addr)
  use (.block g.state)
  if a.createHandle then
    acquire (.handle g.handle)
    acquire (.block g.path)
    use (.block g.path)
    use (.block g.state)
    use (.addr g.addr)
    use (.handle g.handle)
    if a.forward then
      release (.addr g.addr)
      pure (.waiting (openTasks frame g))
    else pure .aborted
  else pure .aborted

def ftcTrackFile : Code Res Ending := do
  acquire (.frame frame)
  if a.tracked then
    acquire (.block g.state)
    use (.block g.state)
    if a.overLimit then
      release (.frame frame)
      pure .returned
    else genOpenRpc frame g a
  else
    release (.frame frame)
    pure .returned

/-- `ftc_client_comm_gen_read_rpc` and `ftc_read_block`, up to its wait. -/
def genReadRpc : Code Res Ending := do
  acquire (.addr g.addr)
  use (.block g.state)
  if a.buffer then
    use (.block g.state)
    if a.createHandle then
      acquire (.handle g.handle)
      use (.handle g.handle)
      if a.getInfo then
        if a.bulkCreate then
          acquire (.bulk g.bulk)
          use (.block g.state)
          use (.addr g.addr)
          use (.handle g.handle)
          if a.forward then
            release (.addr g.addr)
            pure (.waiting (readTasks frame g))
          else pure .aborted
        else pure .aborted
      else pure .aborted
    else pure .aborted
  else pure .aborted

/-- `ftc_remote_read` and `ftc_remote_pread`. -/
def remoteTransfer : Code Res Ending := do
  acquire (.frame frame)
  if a.tracked then
    if a.overLimit then
      release (.frame frame)
      pure .returned
    else
      acquire (.block g.state)
      use (.block g.state)
      genReadRpc frame g a
  else
    release (.frame frame)
    pure .returned

/-- `ftc_remote_lseek`, which waits for a variable of the whole process. -/
def ftcRemoteLseek : Code Res Ending :=
  if a.tracked then do
    acquire (.addr g.addr)
    if a.createHandle then
      acquire (.handle g.handle)
      use (.handle g.handle)
      if a.forward then
        release (.addr g.addr)
        pure (.waiting [.seekCb g.handle])
      else pure .aborted
    else pure .aborted
  else pure .returned

def ftcRemoteClose : Code Res Ending :=
  if a.tracked then
    if a.overLimit then pure .returned
    else do
      acquire (.block g.state)
      use (.block g.state)
      acquire (.addr g.addr)
      use (.block g.state)
      if a.createHandle then
        acquire (.handle g.handle)
        use (.block g.state)
        use (.addr g.addr)
        use (.handle g.handle)
        if a.forward then
          release (.handle g.handle)
          release (.addr g.addr)
          pure .returned
        else pure .aborted
      else pure .aborted
  else pure .returned

def call : Call → Code Res Ending
  | .openFile _ _ _ => ftcTrackFile frame g a
  | .read _ _ _ => remoteTransfer frame g a
  | .pread _ _ _ _ => remoteTransfer frame g a
  | .lseek _ _ _ => ftcRemoteLseek g a
  | .close _ => ftcRemoteClose g a

def ending : Call → Ending
  | .openFile _ _ _ =>
    if a.tracked then
      if a.overLimit then .returned
      else if a.createHandle ∧ a.forward then .waiting (openTasks frame g) else .aborted
    else .returned
  | .lseek _ _ _ =>
    if a.tracked then
      if a.createHandle ∧ a.forward then .waiting [.seekCb g.handle] else .aborted
    else .returned
  | .close _ =>
    if a.tracked then
      if a.overLimit then .returned
      else if a.createHandle ∧ a.forward then .returned else .aborted
    else .returned
  | _ =>
    if a.tracked then
      if a.overLimit then .returned
      else if a.buffer ∧ a.createHandle ∧ a.getInfo ∧ a.bulkCreate ∧ a.forward then
        .waiting (readTasks frame g)
      else .aborted
    else .returned

/-- What a call leaves to no one. -/
def leaves : Call → Multiset Res
  | .openFile _ _ _ =>
    if a.tracked then if a.overLimit then {.block g.state} else {.block g.path} else 0
  | .close _ => if a.tracked then if a.overLimit then 0 else {.block g.state} else 0
  | _ => 0

end Calls

def Ending.owns : Ending → Multiset Res
  | .waiting tasks => ((tasks : Multiset Task).map Task.owns).sum
  | _ => 0

def Grants.all (g : Grants) : Multiset Res :=
  .block g.path ::ₘ .block g.state ::ₘ .addr g.addr ::ₘ .bulk g.bulk ::ₘ {.handle g.handle}

def decodes : Completion → Bool
  | .output _ => true
  | _ => false

theorem decodes_iff {c : Completion} : decodes c ↔ ∃ out, c = .output out := by
  cases c <;> simp [decodes]

def ftcOpenCb (state handle frame : ℕ) (c : Completion) : Code Res Ending :=
  if c = .failed then pure .aborted
  else do
    use (.handle handle)
    -- the result of HG_Get_output is not looked at
    if decodes c then acquire (.output handle) else pure ()
    use (.block state)
    release (.output handle)
    release (.handle handle)
    use (.block state)
    use (.frame frame)
    release (.block state)
    pure .returned

/-- The end of `ftc_read_cb`, from its clean-up on. -/
def cleanUp (state bulk handle frame : ℕ) : Code Res Ending := do
  use (.block state)
  release (.bulk bulk)
  release (.handle handle)
  use (.block state)
  use (.frame frame)
  release (.block state)
  pure .returned

def ftcReadCb (state bulk handle frame : ℕ) (c : Completion) : Code Res Ending :=
  if c = .failed then pure .aborted
  else do
    use (.handle handle)
    if decodes c then do
      acquire (.output handle)
      use (.block state)
      use (.frame frame)
      release (.output handle)
    else pure ()
    cleanUp state bulk handle frame

def ftcSeekCb (handle : ℕ) (c : Completion) : Code Res Ending := do
  use (.handle handle)
  if decodes c then acquire (.output handle) else pure ()
  release (.output handle)
  release (.handle handle)
  pure .returned

def finish (c : Completion) : Task → Code Res Ending
  | .openCb state handle frame => ftcOpenCb state handle frame c
  | .readCb state bulk handle frame => ftcReadCb state bulk handle frame c
  | .seekCb handle => ftcSeekCb handle c
  -- the value is read from the frame when the wait is over
  | .blocked frame => do
    use (.frame frame)
    release (.frame frame)
    pure .returned

/-- A completion with which the callback can do its work. -/
def Task.Ready (c : Completion) : Task → Prop
  | .openCb _ _ _ => decodes c
  | .readCb _ _ _ _ => c ≠ .failed
  | .seekCb _ => decodes c
  | .blocked _ => True

instance (c : Completion) : (t : Task) → Decidable (t.Ready c)
  | .openCb _ _ _ => inferInstanceAs (Decidable (decodes c = true))
  | .readCb _ _ _ _ => inferInstanceAs (Decidable (c ≠ .failed))
  | .seekCb _ => inferInstanceAs (Decidable (decodes c = true))
  | .blocked _ => isTrue trivial

section Specs

variable {frame : ℕ} {g : Grants} {a : Answers} {own : Multiset Res}

/-- The call comes to its end `e`. What it has acquired is owned by the tasks it started,
or is left behind. -/
structure Ended (frame : ℕ) (g : Grants) (a : Answers) (k : Call) (e : Ending)
    (own : Multiset Res) : Prop where
  ending : e = ending frame g a k
  owned : e ≠ .aborted → own = e.owns + leaves g a k
  granted : e ≠ .aborted → own ≤ .frame frame ::ₘ g.all

variable {k : Call}

theorem Ended.of_aborted (he : ClientResources.ending frame g a k = .aborted) :
    Ended frame g a k .aborted own :=
  ⟨he.symm, fun hne ↦ absurd rfl hne, fun hne ↦ absurd rfl hne⟩

theorem Ended.nothing (he : ClientResources.ending frame g a k = .returned)
    (hl : leaves g a k = 0) : Ended frame g a k .returned 0 :=
  ⟨he.symm, fun _ ↦ by rw [hl]; rfl, fun _ ↦ Multiset.zero_le _⟩

theorem Ended.state (he : ClientResources.ending frame g a k = .returned)
    (hl : leaves g a k = {.block g.state}) : Ended frame g a k .returned {.block g.state} := by
  refine ⟨he.symm, fun _ ↦ by simp [hl, Ending.owns], fun _ ↦ Multiset.singleton_le.mpr ?_⟩
  simp [Grants.all]

theorem Ended.waiting_open
    (he : ClientResources.ending frame g a k = .waiting (openTasks frame g))
    (hl : leaves g a k = {.block g.path}) : Ended frame g a k (.waiting (openTasks frame g))
      (.block g.path ::ₘ .handle g.handle ::ₘ .block g.state ::ₘ {.frame frame}) := by
  refine ⟨he.symm, fun _ ↦ ?_,
    fun _ ↦ Multiset.le_iff_exists_add.mpr ⟨{.bulk g.bulk} + {.addr g.addr}, ?_⟩⟩
  · simp only [hl, Ending.owns, openTasks, Task.owns, Multiset.map_coe, Multiset.sum_coe,
      List.map_cons, List.map_nil, List.sum_cons, List.sum_nil, ← Multiset.singleton_add]
    abel
  · simp only [Grants.all, ← Multiset.singleton_add]
    abel

theorem Ended.waiting_read
    (he : ClientResources.ending frame g a k = .waiting (readTasks frame g))
    (hl : leaves g a k = 0) : Ended frame g a k (.waiting (readTasks frame g))
      (.bulk g.bulk ::ₘ .handle g.handle ::ₘ .block g.state ::ₘ {.frame frame}) := by
  refine ⟨he.symm, fun _ ↦ ?_,
    fun _ ↦ Multiset.le_iff_exists_add.mpr ⟨{.block g.path} + {.addr g.addr}, ?_⟩⟩
  · simp only [hl, Ending.owns, readTasks, Task.owns, Multiset.map_coe, Multiset.sum_coe,
      List.map_cons, List.map_nil, List.sum_cons, List.sum_nil, ← Multiset.singleton_add]
    abel
  · simp only [Grants.all, ← Multiset.singleton_add]
    abel

theorem Ended.waiting_seek
    (he : ClientResources.ending frame g a k = .waiting [.seekCb g.handle])
    (hl : leaves g a k = 0) :
    Ended frame g a k (.waiting [.seekCb g.handle]) {.handle g.handle} := by
  refine ⟨he.symm, fun _ ↦ by simp [hl, Ending.owns, Task.owns],
    fun _ ↦ Multiset.singleton_le.mpr ?_⟩
  simp [Grants.all]

theorem ftcTrackFile_ends (frame : ℕ) (g : Grants) (a : Answers) (path : Path)
    (flags : BitVec 32) (fd : Fd) :
    Meets 0 (ftcTrackFile frame g a) (Ended frame g a (.openFile path flags fd)) := by
  refine .acquire (.ite (fun ht ↦ .acquire (.use (by simp) (.ite (fun ho ↦ ?_) (fun ho ↦ ?_))))
    (fun ht ↦ ?_))
  · exact .release (Multiset.cons_swap _ _ _)
      (.pure (.state (by simp [ending, ht, ho]) (by simp [leaves, ht, ho])))
  · refine .acquire (.use (by simp) (.ite (fun hc ↦ ?_)
      (fun hc ↦ .pure (.of_aborted (by simp [ending, ht, ho, hc])))))
    refine .acquire (.acquire (.use (by simp) (.use (by simp) (.use (by simp) (.use (by simp)
      (.ite (fun hf ↦ ?_) (fun hf ↦ .pure (.of_aborted (by simp [ending, ht, ho, hf])))))))))
    refine .release ?_ (.pure (.waiting_open (by simp [ending, ht, ho, hc, hf])
      (by simp [leaves, ht, ho])))
    simp only [← Multiset.singleton_add]
    abel
  · exact .release rfl (.pure (.nothing (by simp [ending, ht]) (by simp [leaves, ht])))

/-- `k` is a read or a pread. -/
theorem remoteTransfer_ends (frame : ℕ) (g : Grants) (a : Answers) (hl : leaves g a k = 0)
    (he : ending frame g a k = if a.tracked then
        if a.overLimit then .returned
        else if a.buffer ∧ a.createHandle ∧ a.getInfo ∧ a.bulkCreate ∧ a.forward then
          .waiting (readTasks frame g)
        else .aborted
      else .returned) :
    Meets 0 (remoteTransfer frame g a) (Ended frame g a k) := by
  refine .acquire (.ite (fun ht ↦ .ite (fun ho ↦ ?_) (fun ho ↦ ?_)) (fun ht ↦ ?_))
  · exact .release rfl (.pure (.nothing (by simp [he, ht, ho]) hl))
  · have hfails (hf : ¬(a.buffer ∧ a.createHandle ∧ a.getInfo ∧ a.bulkCreate ∧ a.forward)) :
        ending frame g a k = .aborted := by
      rw [he, if_pos ht, if_neg ho, if_neg hf]
    refine .acquire (.use (by simp) (.acquire (.use (by simp) ?_)))
    refine .ite (fun hb ↦ .use (by simp) (.ite (fun hc ↦ .acquire (.use (by simp) ?_))
      (fun hc ↦ .pure (.of_aborted (hfails fun h ↦ hc h.2.1)))))
      (fun hb ↦ .pure (.of_aborted (hfails fun h ↦ hb h.1)))
    refine .ite (fun hi ↦ .ite (fun hk ↦ .acquire (.use (by simp) (.use (by simp) (.use (by simp)
      ?_)))) (fun hk ↦ .pure (.of_aborted (hfails fun h ↦ hk h.2.2.2.1))))
      (fun hi ↦ .pure (.of_aborted (hfails fun h ↦ hi h.2.2.1)))
    refine .ite (fun hf ↦ .release ?_ (.pure (.waiting_read ?_ hl)))
      (fun hf ↦ .pure (.of_aborted (hfails fun h ↦ hf h.2.2.2.2)))
    · simp only [← Multiset.singleton_add]
      abel
    · rw [he, if_pos ht, if_neg ho, if_pos ⟨hb, hc, hi, hk, hf⟩]
  · exact .release rfl (.pure (.nothing (by simp [he, ht]) hl))

theorem ftcRemoteLseek_ends (frame : ℕ) (g : Grants) (a : Answers) (fd : Fd)
    (offset whence : ℤ) :
    Meets 0 (ftcRemoteLseek g a) (Ended frame g a (.lseek fd offset whence)) := by
  refine .ite (fun ht ↦ .acquire (.ite (fun hc ↦ .acquire (.use (by simp) ?_))
    (fun hc ↦ .pure (.of_aborted (by simp [ending, ht, hc])))))
    (fun ht ↦ .pure (.nothing (by simp [ending, ht]) rfl))
  exact .ite (fun hf ↦ .release (Multiset.cons_swap _ _ _)
    (.pure (.waiting_seek (by simp [ending, ht, hc, hf]) rfl)))
    (fun hf ↦ .pure (.of_aborted (by simp [ending, ht, hf])))

theorem ftcRemoteClose_ends (frame : ℕ) (g : Grants) (a : Answers) (fd : Fd) :
    Meets 0 (ftcRemoteClose g a) (Ended frame g a (.close fd)) := by
  refine .ite (fun ht ↦ .ite (fun ho ↦ ?_) (fun ho ↦ ?_)) (fun ht ↦ ?_)
  · exact .pure (.nothing (by simp [ending, ht, ho]) (by simp [leaves, ht, ho]))
  · refine .acquire (.use (by simp) (.acquire (.use (by simp) (.ite (fun hc ↦ ?_)
      (fun hc ↦ .pure (.of_aborted (by simp [ending, ht, ho, hc])))))))
    refine .acquire (.use (by simp) (.use (by simp) (.use (by simp) (.ite (fun hf ↦ ?_)
      (fun hf ↦ .pure (.of_aborted (by simp [ending, ht, ho, hf])))))))
    exact .release rfl (.release rfl (.pure (.state (by simp [ending, ht, ho, hc, hf])
      (by simp [leaves, ht, ho]))))
  · exact .pure (.nothing (by simp [ending, ht]) (by simp [leaves, ht]))

theorem call_ends (frame : ℕ) (g : Grants) (a : Answers) (k : Call) :
    Meets 0 (call frame g a k) (Ended frame g a k) := by
  cases k with
  | openFile path flags fd => exact ftcTrackFile_ends frame g a path flags fd
  | read fd buf count => exact remoteTransfer_ends frame g a rfl rfl
  | pread fd buf count offset => exact remoteTransfer_ends frame g a rfl rfl
  | lseek fd offset whence => exact ftcRemoteLseek_ends frame g a fd offset whence
  | close fd => exact ftcRemoteClose_ends frame g a fd

/-- The frame of another call that a callback writes to. -/
def Task.touches : Task → Multiset Res
  | .openCb _ _ frame => {.frame frame}
  | .readCb _ _ _ frame => {.frame frame}
  | _ => 0

theorem ftcOpenCb_yields (state handle frame : ℕ) (out : ℤ) :
    Yields ((Task.openCb state handle frame).owns + {.frame frame})
      (ftcOpenCb state handle frame (.output out)) .returned {.frame frame} := by
  simp only [ftcOpenCb, decodes, reduceCtorEq, ↓reduceIte, Task.owns, Multiset.cons_add,
    Multiset.singleton_add]
  exact .bind (.use (by simp)) (.bind (.acquire _ _) (.bind (.use (by simp)) (.bind (.release rfl)
    (.bind (.release rfl) (.bind (.use (by simp)) (.bind (.use (by simp)) (.bind (.release rfl)
    (.pure _ _))))))))

theorem ftcReadCb_yields (state bulk handle frame : ℕ) {c : Completion} (hc : c ≠ .failed) :
    Yields ((Task.readCb state bulk handle frame).owns + {.frame frame})
      (ftcReadCb state bulk handle frame c) .returned {.frame frame} := by
  have hlast : Yields (.bulk bulk ::ₘ .handle handle ::ₘ .block state ::ₘ {.frame frame})
      (cleanUp state bulk handle frame) .returned {.frame frame} :=
    .bind (.use (by simp)) (.bind (.release rfl) (.bind (.release rfl) (.bind (.use (by simp))
      (.bind (.use (by simp)) (.bind (.release rfl) (.pure _ _))))))
  cases c with
  | failed => exact absurd rfl hc
  | undecodable garbage =>
    simp only [ftcReadCb, decodes, reduceCtorEq, ↓reduceIte, Task.owns, Multiset.cons_add,
      Multiset.singleton_add]
    exact .bind (.use (by simp)) hlast
  | output out =>
    simp only [ftcReadCb, decodes, reduceCtorEq, ↓reduceIte, Task.owns, Multiset.cons_add,
      Multiset.singleton_add]
    exact .bind (.use (by simp)) (.bind (.acquire _ _) (.bind (.use (by simp))
      (.bind (.use (by simp)) (.bind (.release rfl) hlast))))

theorem ftcSeekCb_yields (handle : ℕ) (out : ℤ) :
    Yields (Task.seekCb handle).owns (ftcSeekCb handle (.output out)) .returned 0 := by
  simp only [ftcSeekCb, decodes, ↓reduceIte, Task.owns]
  exact .bind (.use (by simp)) (.bind (.acquire _ _) (.bind (.release rfl) (.bind (.release rfl)
    (.pure _ _))))

/-- A callback gets by with what it owns and with the frame of its call. -/
theorem finish_yields {t : Task} {c : Completion} (h : t.Ready c) :
    Yields (t.owns + t.touches) (finish c t) .returned t.touches := by
  cases t with
  | openCb state handle frame =>
    obtain ⟨out, rfl⟩ := decodes_iff.mp h
    exact ftcOpenCb_yields state handle frame out
  | readCb state bulk handle frame => exact ftcReadCb_yields state bulk handle frame h
  | seekCb handle =>
    obtain ⟨out, rfl⟩ := decodes_iff.mp h
    simpa only [Task.touches, add_zero, finish] using ftcSeekCb_yields handle out
  | blocked frame => exact .bind (.use (by simp [Task.owns])) (.bind (.release rfl) (.pure _ _))

/-- The open callback gives back an output that it did not get. -/
theorem ftcOpenCb_sticks (state handle frame : ℕ) (garbage : ℤ) :
    Sticks (Task.openCb state handle frame).owns
      (ftcOpenCb state handle frame (.undecodable garbage)) (.output handle) := by
  simp only [ftcOpenCb, decodes, reduceCtorEq, ↓reduceIte, Task.owns]
  exact .use (by simp) (.use (by simp) (.at_release _ _ _))

theorem ftcSeekCb_sticks (handle : ℕ) {c : Completion} (hc : decodes c = false) :
    Sticks (Task.seekCb handle).owns (ftcSeekCb handle c) (.output handle) := by
  simp only [ftcSeekCb, hc, Bool.false_eq_true, ↓reduceIte, Task.owns]
  exact .use (by simp) (.at_release _ _ _)

theorem ftcOpenCb_sticks_late (state handle frame : ℕ) (out : ℤ) :
    Sticks (Task.openCb state handle frame).owns
      (ftcOpenCb state handle frame (.output out)) (.frame frame) := by
  simp only [ftcOpenCb, decodes, reduceCtorEq, ↓reduceIte, Task.owns]
  exact .use (by simp) (.acquire (by simp) (.use (by simp) (.release rfl (.release rfl
    (.use (by simp) (.at_use _ _ _))))))

theorem ftcReadCb_sticks_late (state bulk handle frame : ℕ) {c : Completion} (hc : c ≠ .failed) :
    Sticks (Task.readCb state bulk handle frame).owns
      (ftcReadCb state bulk handle frame c) (.frame frame) := by
  cases c with
  | failed => exact absurd rfl hc
  | undecodable garbage =>
    simp only [ftcReadCb, decodes, reduceCtorEq, ↓reduceIte, Task.owns]
    exact .use (by simp) (.use (by simp) (.release rfl (.release rfl (.use (by simp)
      (.at_use _ _ _)))))
  | output out =>
    simp only [ftcReadCb, decodes, reduceCtorEq, ↓reduceIte, Task.owns]
    exact .use (by simp) (.acquire (by simp) (.use (by simp) (.at_use _ _ _)))

end Specs

section Effects

variable (cfg : Config) (forwards : Bool) (cl : Client)

def found : Lookup → Bool
  | .found _ => true
  | _ => false

/-- What a call on a file that is recorded as `path` finds out when Mercury itself fails
at nothing but the forwarding. -/
def answersFor (path : Option Path) : Answers :=
  match path with
  | none => { tracked := false }
  | some p =>
    { overLimit := cl.overLimit (cfg.host p)
      forward := forwards && found (cl.lookup cfg (cfg.host p)).1 }

def answers : Call → Answers
  | .openFile path flags _ => answersFor cfg forwards cl (trackedPath cfg path flags)
  | .read fd buf _ => { answersFor cfg forwards cl (cl.fdMap fd) with buffer := buf ≠ 0 }
  | .pread fd buf _ _ => { answersFor cfg forwards cl (cl.fdMap fd) with buffer := buf ≠ 0 }
  | .lseek fd _ _ => answersFor cfg forwards cl (cl.fdMap fd)
  | .close fd => answersFor cfg forwards cl (cl.fdMap fd)

/-- The request a call sends. -/
def sent (cell : Addr) : Call → Except Fault (Option Sent)
  | .openFile path flags fd => (cl.ftcTrackFile cfg forwards path flags fd cell).map (·.2.2)
  | .read fd buf count => (cl.ftcRemoteRead cfg forwards fd buf count cell).map (·.2)
  | .pread fd buf count offset =>
    (cl.ftcRemotePread cfg forwards fd buf count offset cell).map (·.2)
  | .lseek fd offset whence => (cl.ftcRemoteLseek cfg forwards fd offset whence).map (·.2)
  | .close fd => (cl.ftcRemoteClose cfg forwards fd).map (·.2)

def Ending.Agrees : Ending → Except Fault (Option Sent) → Prop
  | .aborted, .error _ => True
  | .returned, .ok none => True
  | .returned, .ok (some sent) => sent.callback = .none
  | .waiting _, .ok (some sent) => sent.callback ≠ .none
  | _, _ => False

theorem forward_eq (r : Client × Sent) (addr : Lookup) :
    ((forwards && found addr) = true ∧ forward forwards r addr = .ok r) ∨
      ((forwards && found addr) = false ∧ ∃ e, forward forwards r addr = .error e) := by
  cases addr with
  | found a =>
    cases forwards with
    | true => exact .inl ⟨rfl, rfl⟩
    | false => exact .inr ⟨by simp, _, rfl⟩
  | null => exact .inr ⟨by simp [found], _, rfl⟩
  | uninitialised => exact .inr ⟨by simp [found], _, rfl⟩

theorem transfer_agrees {frame : ℕ} {g : Grants} {k : Call} {fd : Fd} {buf : Addr} {count : ℕ}
    {offset : ℤ} {cell : Addr} (hk : k.transfer = some (fd, buf, count, offset)) :
    (ending frame g { answersFor cfg forwards cl (cl.fdMap fd) with buffer := buf ≠ 0 } k).Agrees
      ((cl.remoteTransfer cfg forwards fd buf count offset cell).map (·.2)) := by
  have he (a : Answers) : ending frame g a k = if a.tracked then
      if a.overLimit then .returned
      else if a.buffer ∧ a.createHandle ∧ a.getInfo ∧ a.bulkCreate ∧ a.forward then
        .waiting (readTasks frame g)
      else .aborted
    else .returned := by
    cases k <;> first | rfl | cases hk
  rw [he]
  cases hp : cl.fdMap fd with
  | none =>
    simp only [Client.remoteTransfer, hp]
    exact trivial
  | some p =>
    by_cases ho : cl.overLimit (cfg.host p)
    · simp only [Client.remoteTransfer, hp, answersFor, ho, ↓reduceIte]
      exact trivial
    · by_cases hb : buf = 0
      · simp only [Client.remoteTransfer, hp, answersFor, ho, ftcClientCommGenReadRpc, hb,
          ↓reduceIte]
        simp [Except.map, Ending.Agrees]
      · obtain ⟨r, hr, hcb⟩ : ∃ r, cl.ftcClientCommGenReadRpc cfg forwards (cfg.host p) p fd buf
            count offset cell = forward forwards r (cl.lookup cfg (cfg.host p)).1 ∧
            r.2.callback ≠ .none := by
          refine ⟨_, if_neg hb, by simp⟩
        simp only [Client.remoteTransfer, hp, answersFor, ho, hr, ↓reduceIte]
        rcases forward_eq forwards r (cl.lookup cfg (cfg.host p)).1 with ⟨hf, hok⟩ | ⟨hf, e, herr⟩
        · simpa [hf, hok, hb, Except.map, Ending.Agrees] using hcb
        · simp [hf, herr, hb, Except.map, Ending.Agrees]

/-- The calls come to the same ends here as in the model of their effects. -/
theorem call_agrees (frame : ℕ) (g : Grants) (cell : Addr) (k : Call) :
    (ending frame g (answers cfg forwards cl k) k).Agrees (sent cfg forwards cl cell k) := by
  cases k with
  | read fd buf count => exact transfer_agrees cfg forwards cl rfl
  | pread fd buf count offset => exact transfer_agrees cfg forwards cl rfl
  | openFile path flags fd =>
    simp only [sent, Client.ftcTrackFile, answers]
    cases hp : trackedPath cfg path flags with
    | none => exact trivial
    | some p =>
      have hlimit : ({ cl with fdMap := cl.fdMap.insert fd p } : Client).overLimit (cfg.host p) ↔
          cl.overLimit (cfg.host p) := Iff.rfl
      obtain ⟨r, hr, hcb⟩ : ∃ r, ({ cl with fdMap := cl.fdMap.insert fd p } :
          Client).ftcClientCommGenOpenRpc cfg forwards (cfg.host p) p fd cell =
          forward forwards r (cl.lookup cfg (cfg.host p)).1 ∧ r.2.callback ≠ .none :=
        ⟨_, rfl, by simp⟩
      simp only [hlimit, hr]
      by_cases ho : cl.overLimit (cfg.host p)
      · simp [ending, answersFor, ho, Except.map, Ending.Agrees]
      · rcases forward_eq forwards r (cl.lookup cfg (cfg.host p)).1 with ⟨hf, hok⟩ | ⟨hf, e, herr⟩
        · simpa [ending, answersFor, ho, hf, hok, Except.map, Ending.Agrees] using hcb
        · simp [ending, answersFor, ho, hf, herr, Except.map, Ending.Agrees]
  | lseek fd offset whence =>
    simp only [sent, Client.ftcRemoteLseek, answers]
    cases hp : cl.fdMap fd with
    | none => exact trivial
    | some p =>
      obtain ⟨r, hr, hcb⟩ : ∃ r, cl.ftcClientCommGenSeekRpc cfg forwards (cfg.host p) p fd offset
          whence = forward forwards r (cl.lookup cfg (cfg.host p)).1 ∧ r.2.callback ≠ .none :=
        ⟨_, rfl, by simp⟩
      simp only [hr]
      rcases forward_eq forwards r (cl.lookup cfg (cfg.host p)).1 with ⟨hf, hok⟩ | ⟨hf, e, herr⟩
      · simpa [ending, answersFor, hf, hok, Except.map, Ending.Agrees] using hcb
      · simp [ending, answersFor, hf, herr, Except.map, Ending.Agrees]
  | close fd =>
    simp only [sent, Client.ftcRemoteClose, answers]
    cases hp : cl.fdMap fd with
    | none => exact trivial
    | some p =>
      obtain ⟨r, hr, hcb⟩ : ∃ r, cl.ftcClientCommGenCloseRpc cfg forwards (cfg.host p) p fd =
          forward forwards r (cl.lookup cfg (cfg.host p)).1 ∧ r.2.callback = .none :=
        ⟨_, rfl, rfl⟩
      by_cases ho : cl.overLimit (cfg.host p)
      · simp [ending, answersFor, ho, Except.map, Ending.Agrees]
      · simp only [hr, ho, ↓reduceIte]
        rcases forward_eq forwards r (cl.lookup cfg (cfg.host p)).1 with ⟨hf, hok⟩ | ⟨hf, e, herr⟩
        · simpa [ending, answersFor, ho, hf, hok, Except.map, Ending.Agrees] using hcb
        · simp [ending, answersFor, ho, hf, herr, Except.map, Ending.Agrees]

end Effects

inductive Status
  | running
  | aborted
  | misused
  deriving DecidableEq

/-- A client process: what is alive in it and what is still to happen. `calls` numbers
the calls and their frames. It is misused once code used or released what is not alive. -/
structure Process where
  live : Multiset Res := 0
  tasks : Multiset Task := 0
  calls : ℕ := 0
  status : Status := .running

inductive Label
  | call (k : Call) (g : Grants) (a : Answers)
  | finish (t : Task) (c : Completion)

def Label.leaves : Label → Multiset Res
  | .call k g a => ClientResources.leaves g a k
  | .finish _ _ => 0

/-- The assertion at the head of the open and the read callback fails. -/
def Task.Aborts (c : Completion) : Task → Prop
  | .openCb _ _ _ => c = .failed
  | .readCb _ _ _ _ => c = .failed
  | _ => False

instance (c : Completion) : (t : Task) → Decidable (t.Aborts c)
  | .openCb _ _ _ => inferInstanceAs (Decidable (c = .failed))
  | .readCb _ _ _ _ => inferInstanceAs (Decidable (c = .failed))
  | .seekCb _ => isFalse id
  | .blocked _ => isFalse id

def Task.frame : Task → Option ℕ
  | .openCb _ _ frame => some frame
  | .readCb _ _ _ frame => some frame
  | _ => none

theorem Task.frame_mem_owns {t : Task} {f : ℕ} : .frame f ∈ t.owns ↔ t = .blocked f := by
  cases t <;> simp [owns, eq_comm]

theorem Task.output_not_mem_owns (t : Task) (h : ℕ) : .output h ∉ t.owns := by
  cases t <;> simp [owns]

theorem leaves_blocks (g : Grants) (a : Answers) (k : Call) :
    ∀ r ∈ leaves g a k, ∃ b, r = .block b := by
  cases k with
  | openFile path flags fd =>
    simp only [leaves]
    split
    · split <;> simp
    · simp
  | close fd =>
    simp only [leaves]
    split
    · split <;> simp
    · simp
  | read fd buf count => simp [leaves]
  | pread fd buf count offset => simp [leaves]
  | lseek fd offset whence => simp [leaves]

namespace Process

variable {s s' : Process} {l : Label} {left : Multiset Res}

/-- Allocator and Mercury hand out what is not alive, and nothing twice. -/
def Offers (s : Process) (g : Grants) : Prop := (g.all + s.live).Nodup

instance (s : Process) (g : Grants) : Decidable (s.Offers g) :=
  inferInstanceAs (Decidable (g.all + s.live).Nodup)

def settle (s : Process) (live : Multiset Res) : Ending → Process
  | .aborted => { s with live, status := .aborted }
  | .returned => { s with live, calls := s.calls + 1 }
  | .waiting tasks => { s with live, tasks := tasks + s.tasks, calls := s.calls + 1 }

def step (s : Process) : Label → Option Process
  | .call k g a =>
    if s.status = .running ∧ s.Offers g then
      match (call s.calls g a k).run s.live with
      | none => some { s with status := .misused }
      | some (e, live) => some (s.settle live e)
    else none
  | .finish t c =>
    if s.status = .running ∧ t ∈ s.tasks then
      match (finish c t).run s.live with
      | none => some { s with status := .misused }
      | some (.aborted, live) => some { s with live, status := .aborted }
      | some (_, live) => some { s with live, tasks := s.tasks.erase t }
    else none

/-- A callback that is given a reply it can use runs while its call is still blocked. -/
def InTime (s : Process) : Label → Prop
  | .call _ _ _ => True
  | .finish t c => t.Aborts c ∨ t.Ready c ∧ ∀ f ∈ t.frame, .blocked f ∈ s.tasks

instance (s : Process) : (l : Label) → Decidable (s.InTime l)
  | .call _ _ _ => isTrue trivial
  | .finish t c =>
    inferInstanceAs (Decidable (t.Aborts c ∨ t.Ready c ∧ ∀ f ∈ t.frame, .blocked f ∈ s.tasks))

/-- Nothing was misused, nothing is alive twice, all that is alive is accounted for,
and what nothing accounts for are blocks. -/
structure Sound (left : Multiset Res) (s : Process) : Prop where
  kept : s.status ≠ .misused
  blocks : ∀ r ∈ left, ∃ b, r = .block b
  nodup : s.status = .running → s.live.Nodup
  accounted : s.status = .running → Accounted Task.owns s.tasks left s.live
  frames : s.status = .running → ∀ f, .frame f ∈ s.live → f < s.calls

theorem Sound.frame_alive (h : Sound left s) (hrun : s.status = .running) (f : ℕ) :
    .frame f ∈ s.live ↔ .blocked f ∈ s.tasks := by
  rw [(h.accounted hrun).mem_iff]
  constructor
  · rintro (⟨t, ht, hf⟩ | hleft)
    · rwa [← Task.frame_mem_owns.mp hf]
    · obtain ⟨b, hb⟩ := h.blocks _ hleft
      cases hb
  · intro ht
    exact .inl ⟨_, ht, Task.frame_mem_owns.mpr rfl⟩

theorem Sound.output_dead (h : Sound left s) (hrun : s.status = .running) (id : ℕ) :
    .output id ∉ s.live := by
  rw [(h.accounted hrun).mem_iff]
  rintro (⟨t, -, ht⟩ | hleft)
  · exact t.output_not_mem_owns id ht
  · obtain ⟨b, hb⟩ := h.blocks _ hleft
    cases hb

theorem sound_settle {own : Multiset Res} {g : Grants} {a : Answers} {k : Call} {e : Ending}
    (h : Sound left s) (hrun : s.status = .running) (hf : s.Offers g)
    (hend : Ended s.calls g a k e own) :
    Sound (leaves g a k + left) (s.settle (own + s.live) e) := by
  have hacc := (h.accounted hrun).leaves (leaves g a k)
  have hblocks : ∀ r ∈ leaves g a k + left, ∃ b, r = .block b := by
    intro r hr
    rcases Multiset.mem_add.mp hr with hr | hr
    · exact leaves_blocks g a k r hr
    · exact h.blocks r hr
  have hnodup (he : e ≠ .aborted) : (own + s.live).Nodup := by
    have hnew : .frame s.calls ∉ g.all + s.live := by
      intro hmem
      rcases Multiset.mem_add.mp hmem with hmem | hmem
      · simp [Grants.all] at hmem
      · exact absurd (h.frames hrun _ hmem) (Nat.lt_irrefl _)
    refine Multiset.nodup_of_le (add_le_add_left (hend.granted he) _) ?_
    rw [Multiset.cons_add]
    exact Multiset.nodup_cons.mpr ⟨hnew, hf⟩
  have hframes (he : e ≠ .aborted) (f : ℕ) (hmem : .frame f ∈ own + s.live) :
      f < s.calls + 1 := by
    rcases Multiset.mem_add.mp hmem with hmem | hmem
    · have hall := Multiset.mem_of_le (hend.granted he) hmem
      simp only [Grants.all, Multiset.mem_cons, Multiset.mem_singleton, reduceCtorEq,
        Res.frame.injEq, or_false] at hall
      omega
    · exact Nat.lt_succ_of_lt (h.frames hrun f hmem)
  have hown := hend.owned
  clear hend
  cases e with
  | aborted =>
    exact ⟨by simp [settle], hblocks, by simp [settle], by simp [settle], by simp [settle]⟩
  | returned =>
    refine ⟨h.kept, hblocks, fun _ ↦ hnodup (by simp), fun _ ↦ ?_, fun _ ↦ hframes (by simp)⟩
    simpa [settle, hown, Ending.owns] using hacc
  | waiting tasks =>
    refine ⟨h.kept, hblocks, fun _ ↦ hnodup (by simp), fun _ ↦ ?_, fun _ ↦ hframes (by simp)⟩
    simpa [settle, hown, Ending.owns, add_assoc] using hacc.begins_all tasks

theorem step_call {k : Call} {g : Grants} {a : Answers} (h : Sound left s)
    (hs : s.step (.call k g a) = some s') : Sound (leaves g a k + left) s' := by
  simp only [step] at hs
  split at hs
  case isTrue hg =>
    obtain ⟨e, own, hy, hend⟩ := call_ends s.calls g a k
    have hrun := hy s.live
    rw [zero_add] at hrun
    rw [hrun] at hs
    cases hs
    exact sound_settle h hg.1 hg.2 hend
  case isFalse => cases hs

theorem Task.finish_aborts {t : Task} {c : Completion} (h : t.Aborts c) :
    finish c t = pure .aborted := by
  cases t with
  | openCb state handle frame => exact if_pos h
  | readCb state bulk handle frame => exact if_pos h
  | seekCb handle => exact h.elim
  | blocked frame => exact h.elim

/-- What a callback touches without owning it is alive as long as its call is blocked. -/
theorem touches_le {t : Task} {rest : Multiset Res} (h : Sound left s)
    (hrun : s.status = .running) (hlive : s.live = t.owns + rest)
    (ht : ∀ f ∈ t.frame, .blocked f ∈ s.tasks) : t.touches ≤ rest := by
  have hframe (f : ℕ) (hf : f ∈ t.frame) (hn : t ≠ .blocked f) : .frame f ∈ rest := by
    have hmem := (h.frame_alive hrun f).mpr (ht f hf)
    rw [hlive, Multiset.mem_add] at hmem
    exact hmem.resolve_left fun hx ↦ hn (Task.frame_mem_owns.mp hx)
  cases t with
  | openCb state handle frame =>
    exact Multiset.singleton_le.mpr (hframe frame rfl (by simp))
  | readCb state bulk handle frame =>
    exact Multiset.singleton_le.mpr (hframe frame rfl (by simp))
  | seekCb handle => exact Multiset.zero_le _
  | blocked frame => exact Multiset.zero_le _

theorem step_finish {t : Task} {c : Completion} (h : Sound left s)
    (ht : s.InTime (.finish t c)) (hs : s.step (.finish t c) = some s') : Sound left s' := by
  simp only [step] at hs
  split at hs
  case isTrue hg =>
    rcases ht with habort | ⟨hready, hblocked⟩
    · have hrun : (finish c t).run s.live = some (.aborted, s.live) := by
        rw [Task.finish_aborts habort]
        rfl
      rw [hrun] at hs
      cases hs
      exact ⟨by simp, h.blocks, by simp, by simp, by simp⟩
    · obtain ⟨rest, hlive, hrest⟩ := (h.accounted hg.1).ends hg.2
      obtain ⟨more, rfl⟩ := Multiset.le_iff_exists_add.mp (touches_le h hg.1 hlive hblocked)
      have hrun := finish_yields hready more
      rw [add_assoc, ← hlive] at hrun
      rw [hrun] at hs
      cases hs
      have hle : t.touches + more ≤ s.live := hlive ▸ Multiset.le_add_left _ _
      refine ⟨h.kept, h.blocks, fun hr ↦ Multiset.nodup_of_le hle (h.nodup hr), fun _ ↦ hrest, ?_⟩
      intro hr f hf
      exact h.frames hr f (Multiset.mem_of_le hle hf)
  case isFalse => cases hs

theorem finish_stuck {t : Task} {c : Completion} (h : Sound left s)
    (hrun : s.status = .running) (ht : t ∈ s.tasks) (hlate : ¬s.InTime (.finish t c)) :
    (finish c t).run s.live = none := by
  obtain ⟨rest, hlive, -⟩ := (h.accounted hrun).ends ht
  have houtput (id : ℕ) : .output id ∉ t.owns + rest := hlive ▸ h.output_dead hrun id
  have hframe (f : ℕ) (hf : .blocked f ∉ s.tasks) : .frame f ∉ t.owns + rest :=
    hlive ▸ mt (h.frame_alive hrun f).mp hf
  simp only [InTime, not_or, not_and] at hlate
  rw [hlive]
  cases t with
  | openCb state handle frame =>
    cases c with
    | failed => exact absurd rfl hlate.1
    | undecodable garbage => exact ftcOpenCb_sticks state handle frame garbage rest (houtput _)
    | output out =>
      refine ftcOpenCb_sticks_late state handle frame out rest (hframe _ fun hb ↦ ?_)
      exact hlate.2 rfl (by simpa [Task.frame] using hb)
  | readCb state bulk handle frame =>
    refine ftcReadCb_sticks_late state bulk handle frame hlate.1 rest (hframe _ fun hb ↦ ?_)
    exact hlate.2 hlate.1 (by simpa [Task.frame] using hb)
  | seekCb handle =>
    refine ftcSeekCb_sticks handle (Bool.eq_false_iff.mpr fun hd ↦ ?_) rest (houtput _)
    exact hlate.2 hd (by simp [Task.frame])
  | blocked frame => exact absurd (by simp [Task.frame]) (hlate.2 trivial)

theorem step_inTime (h : Sound left s) (ht : s.InTime l) (hs : s.step l = some s') :
    Sound (l.leaves + left) s' := by
  cases l with
  | call k g a => exact step_call h hs
  | finish t c =>
    rw [Label.leaves, zero_add]
    exact step_finish h ht hs

theorem step_late (h : Sound left s) (ht : ¬s.InTime l) (hs : s.step l = some s') :
    s'.status = .misused := by
  cases l with
  | call k g a => exact absurd trivial ht
  | finish t c =>
    simp only [step] at hs
    split at hs
    case isTrue hg =>
      rw [finish_stuck h hg.1 hg.2 ht] at hs
      cases hs
      rfl
    case isFalse => cases hs

theorem exec_misused {ls : List Label} (h : s.status = .misused)
    (hs : exec step s ls = some s') : s'.status = .misused := by
  cases ls with
  | nil =>
    cases hs
    exact h
  | cons l ls =>
    obtain ⟨t, ht, -⟩ := Option.bind_eq_some_iff.mp hs
    cases l <;> simp [step, h] at ht

theorem exec_sound {ls : List Label} (h : Sound left s) (hs : exec step s ls = some s') :
    (Along step InTime s ls → Sound ((ls.map Label.leaves).sum + left) s') ∧
      (¬Along step InTime s ls → s'.status = .misused) := by
  induction ls generalizing s left with
  | nil =>
    cases hs
    exact ⟨fun _ ↦ by simpa using h, fun hn ↦ absurd trivial hn⟩
  | cons l ls ih =>
    obtain ⟨t, ht, hs⟩ := Option.bind_eq_some_iff.mp hs
    have halong : Along step InTime s (l :: ls) ↔ s.InTime l ∧ Along step InTime t ls := by
      simp [Along, ht]
    rw [halong, List.map_cons, List.sum_cons, add_comm l.leaves, add_assoc]
    by_cases hl : s.InTime l
    · obtain ⟨hgood, hbad⟩ := ih (step_inTime h hl ht) hs
      exact ⟨fun hx ↦ hgood hx.2, fun hx ↦ hbad fun hr ↦ hx ⟨hl, hr⟩⟩
    · exact ⟨fun hx ↦ absurd hx.1 hl, fun _ ↦ exec_misused (step_late h hl ht) hs⟩

/-- No callback uses what is not alive exactly as long as every callback runs before its
call returns, and finds a reply that decodes where it does not look. As long as that is
so, what is alive is what the callbacks and the blocked calls own, with a block for each
file opened and each file closed, which nothing releases. -/
theorem misused_iff_late (ls : List Label) (s : Process) (h : exec step {} ls = some s) :
    (s.status ≠ .misused ↔ Along step InTime {} ls) ∧
      (s.status = .running → s.live.Nodup ∧
        s.live = (s.tasks.map Task.owns).sum + (ls.map Label.leaves).sum) := by
  have hstart : Sound 0 ({} : Process) :=
    ⟨by simp, by simp, fun _ ↦ Multiset.nodup_zero, fun _ ↦ by simp [Accounted], by simp⟩
  obtain ⟨hgood, hbad⟩ := exec_sound hstart h
  have hiff : s.status ≠ .misused ↔ Along step InTime {} ls :=
    ⟨fun hs ↦ by_contra fun hn ↦ hs (hbad hn), fun ha ↦ (hgood ha).kept⟩
  refine ⟨hiff, fun hrun ↦ ?_⟩
  have hsound := hgood (hiff.mp (by simp [hrun]))
  exact ⟨hsound.nodup hrun, by simpa [Accounted] using hsound.accounted hrun⟩

/-- An open, and a read whose reply comes before the call returns. -/
def sampleRun : List Label :=
  [.call (.openFile samplePath 0 3) ⟨10, 11, 0, 0, 0⟩ {},
    .finish (.openCb 10 0 0) (.output 5),
    .finish (.blocked 0) (.output 5),
    .call (.read 3 100 4) ⟨10, 12, 1, 1, 1⟩ {},
    .finish (.readCb 10 1 1 1) (.output 4)]

theorem misused_iff_late_sample :
    ∃ s, exec step {} sampleRun = some s ∧ s.status ≠ .misused := by
  have hrun : (exec step {} sampleRun).isSome = true := by decide +kernel
  have htime : Along step InTime {} sampleRun := by decide +kernel
  obtain ⟨s, hs⟩ := Option.isSome_iff_exists.mp hrun
  exact ⟨s, hs, (misused_iff_late sampleRun s hs).1.mpr htime⟩

end Process

end FTCache.ClientResources
