import FTCache.Library.Runs
import FTCache.Server

namespace FTCache

open Posix

def fileName (p : Path) : Path := (p.reverse.takeWhile (· ≠ '/')).reverse

/-- What the data mover thread can do next. Its lock regions and the stages of
`fs::copy` are single steps, so requests are handled between any two of them. -/
inductive MoverStep
  | take
  | mkdtemp (newdir : Path)
  | copyBegin (written : ℕ)
  | copyEnd
  | copyFail
  | publish
  deriving DecidableEq

namespace Server

/-- `fs::copy` creates its target, never replaces a file, and needs a source. -/
def copyBegin (srv : Server) (p filename : Path) (written : ℕ) : Option Server :=
  match srv.files p, srv.files filename with
  | some b, none => some { srv with
      files := PMap.insert srv.files filename (b.take written)
      mover := { srv.mover with phase := .copying filename } }
  | _, _ => none

def copyEnd (srv : Server) (p filename : Path) : Option Server :=
  (srv.files p).map fun b ↦ { srv with
    files := PMap.insert srv.files filename b
    mover := { srv.mover with
      phase := .copied filename
      copies := srv.mover.copies ++ [(p, filename)] } }

/-- The handler of the exception and `local_list.pop()`. -/
def copyFail (srv : Server) : Server :=
  { srv with mover := { srv.mover with localList := srv.mover.localList.tail, phase := .idle } }

def publish (srv : Server) (p filename : Path) : Server :=
  { srv with
    pathCacheMap := srv.pathCacheMap.insert p filename
    mover := { srv.mover with localList := srv.mover.localList.tail, phase := .idle } }

def moverStep (srv : Server) (m : MoverStep) : Option Server :=
  match m, srv.mover.phase, srv.mover.localList with
  | .take, .idle, [] =>
    if srv.dataQueue = [] then none
    else some { srv with
      dataQueue := []
      mover := { srv.mover with localList := srv.dataQueue } }
  -- the result of mkdtemp is not looked at: only the name it leaves is used
  | .mkdtemp newdir, .idle, p :: _ => some { srv with
      mover := { srv.mover with phase := .named (newdir ++ '/' :: fileName p) } }
  | .copyBegin written, .named filename, p :: _ => srv.copyBegin p filename written
  | .copyEnd, .copying filename, p :: _ => srv.copyEnd p filename
  | .copyFail, .named _, _ :: _ => some srv.copyFail
  | .copyFail, .copying _, _ :: _ => some srv.copyFail
  | .publish, .copied filename, p :: _ => some (srv.publish p filename)
  | _, _, _ => none

/-- What a step of the data mover can do, with the guard of each case. -/
inductive Moves (srv : Server) : Server → Prop
  | take (hp : srv.mover.phase = .idle) (hl : srv.mover.localList = []) :
      Moves srv { srv with
        dataQueue := []
        mover := { srv.mover with localList := srv.dataQueue } }
  | mkdtemp (newdir p : Path) (rest : List Path) (hp : srv.mover.phase = .idle)
      (hl : srv.mover.localList = p :: rest) :
      Moves srv { srv with
        mover := { srv.mover with phase := .named (newdir ++ '/' :: fileName p) } }
  | copyBegin (p filename : Path) (rest : List Path) (b : Bytes) (n : ℕ)
      (hp : srv.mover.phase = .named filename) (hl : srv.mover.localList = p :: rest)
      (hb : srv.files p = some b) (hf : srv.files filename = none) :
      Moves srv { srv with
        files := PMap.insert srv.files filename (b.take n)
        mover := { srv.mover with phase := .copying filename } }
  | copyEnd (p filename : Path) (rest : List Path) (b : Bytes)
      (hp : srv.mover.phase = .copying filename) (hl : srv.mover.localList = p :: rest)
      (hb : srv.files p = some b) :
      Moves srv { srv with
        files := PMap.insert srv.files filename b
        mover := { srv.mover with
          phase := .copied filename
          copies := srv.mover.copies ++ [(p, filename)] } }
  | copyFail (filename : Path)
      (hp : srv.mover.phase = .named filename ∨ srv.mover.phase = .copying filename) :
      Moves srv srv.copyFail
  | publish (p filename : Path) (rest : List Path)
      (hp : srv.mover.phase = .copied filename) (hl : srv.mover.localList = p :: rest) :
      Moves srv (srv.publish p filename)

theorem moverStep_moves {srv s : Server} {m : MoverStep} (h : srv.moverStep m = some s) :
    Moves srv s := by
  unfold moverStep at h
  split at h
  case h_1 hp hl =>
    split at h
    · cases h
    · cases h
      exact .take hp hl
  case h_2 newdir p rest hp hl =>
    cases h
    exact .mkdtemp newdir p rest hp hl
  case h_3 n f p rest hp hl =>
    unfold Server.copyBegin at h
    split at h
    · cases h
      exact .copyBegin p f rest _ n hp hl ‹_› ‹_›
    · cases h
  case h_4 f p rest hp hl =>
    obtain ⟨b, hb, rfl⟩ := Option.map_eq_some_iff.mp h
    exact .copyEnd p f rest b hp hl hb
  case h_5 f p rest hp hl =>
    cases h
    exact .copyFail f (.inl hp)
  case h_6 f p rest hp hl =>
    cases h
    exact .copyFail f (.inr hp)
  case h_7 f p rest hp hl =>
    cases h
    exact .publish p f rest hp hl
  case h_8 => cases h

end Server

inductive ServerLabel
  | request (r : Request) (env : Env)
  | mover (m : MoverStep)

/-- The server process after a handler returned. A failed assertion stops it. -/
def Handled.after (srv : Server) : Handled → Server
  | .aborted _ => { srv with aborted := true }
  | .responded s _ => s
  | .pushing s _ => s
  | .silent s => s

namespace Server

def step (srv : Server) (l : ServerLabel) : Option Server :=
  if srv.aborted then none
  else match l with
    | .request r env => some ((srv.handle r env).after srv)
    | .mover m => srv.moverStep m

theorem step_cases {srv s : Server} {l : ServerLabel} (hs : srv.step l = some s) :
    (∃ r env, l = .request r env ∧ s = (srv.handle r env).after srv) ∨
      ∃ m, l = .mover m ∧ Moves srv s := by
  unfold step at hs
  split at hs
  case isTrue => cases hs
  case isFalse =>
    cases l with
    | request r env =>
      cases hs
      exact .inl ⟨r, env, rfl, rfl⟩
    | mover m => exact .inr ⟨m, rfl, moverStep_moves hs⟩

/-- A server process that has just started, with the descriptors it owns itself. -/
def start (files : Path → Option Bytes) (own : Table Path) : Server where
  files := files
  fds := own
  fdToPath := fun _ ↦ none
  pathCacheMap := fun _ ↦ none
  dataQueue := []
  mover := {}
  aborted := false

/-- The part of the server the cache rests on; handlers never write it. -/
def cacheView (srv : Server) := (srv.files, srv.pathCacheMap, srv.mover)

theorem cacheView_eq {srv s : Server} (h : s.cacheView = srv.cacheView) :
    s.files = srv.files ∧ s.pathCacheMap = srv.pathCacheMap ∧ s.mover = srv.mover := by
  simpa [cacheView] using h

theorem startTransfer_view (srv : Server) (inp : RpcIn) (r : Option Bytes) (srv₀ : Server)
    (h : srv.cacheView = srv₀.cacheView) :
    ((startTransfer srv inp r).after srv₀).cacheView = srv₀.cacheView := by
  simp only [startTransfer]
  split
  · exact h
  · rfl

theorem handle_view (srv : Server) (r : Request) (env : Env) :
    ((srv.handle r env).after srv).cacheView = srv.cacheView := by
  cases r with
  | openRpc inp => rfl
  | seekRpc inp => rfl
  | closeRpc inp =>
    simp only [handle, ftcCloseRpcHandler]
    split <;> rfl
  | baseRpc inp =>
    simp only [handle, ftcRpcHandler]
    split
    · split
      · exact startTransfer_view _ inp _ srv rfl
      · split
        · rfl
        · exact startTransfer_view _ inp _ srv rfl
    · rfl

end Server

end FTCache
