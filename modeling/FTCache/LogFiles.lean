import FTCache.LogRecords

/-! The log files of a job, which its processes share. -/

namespace FTCache.LogFiles

open Interception LogRecords

variable (env : Setup)

/-- The `type` that the processes pass to `initialize_log` and `logging_info`. -/
inductive Side
  | client
  | server
  deriving DecidableEq

def Side.type : Side → Path
  | .client => Interception.client
  | .server => ['s', 'e', 'r', 'v', 'e', 'r']

/-- What happens to the files: a process of a rank starts, or one writes a line. A client
names the file of a line after the server that it is about. -/
inductive Event
  | start (side : Side) (rank : ℤ)
  | line (side : Side) (r : LogRecord)
  deriving DecidableEq

/-- The first line of `initialize_log`. -/
def header (side : Side) (rank : ℤ) : Text :=
  ['L', 'o', 'g', ' ', 'f', 'i', 'l', 'e', ' ', 'f', 'o', 'r', ' '] ++ side.type ++
    [' ', 'r', 'a', 'n', 'k', ' '] ++ decimal rank ++ ['\n']

abbrev Files := PMap Path Text

def Event.file : Event → Path
  | .start side rank => logFilename env side.type rank
  | .line side r => logFilename env side.type r.serverRank

/-- `fopen` with "w" empties the file, with "a" it does not. What `fclose` writes out goes in one
piece. -/
def step (files : Files) (e : Event) : Files :=
  if env.opens (e.file env) then
    match e with
    | .start side rank => files.insert (e.file env) (header side rank)
    | .line _ r => files.insert (e.file env) ((files (e.file env)).getD [] ++ r.line)
  -- exit(EXIT_FAILURE) in a start; a line is left out
  else files

def run (es : List Event) : Files := es.foldl (step env) fun _ ↦ none

/-- The lines that go into a file, whatever becomes of them. -/
def written (name : Path) (es : List Event) : List Text :=
  es.filterMap fun
    | .line side r => if logFilename env side.type r.serverRank = name then some r.line else none
    | .start _ _ => none

variable {env} {name : Path} {es : List Event} {files : Files}

theorem written_append (es es' : List Event) :
    written env name (es ++ es') = written env name es ++ written env name es' :=
  List.filterMap_append

theorem step_other (e : Event) (he : e.file env ≠ name) : step env files e name = files name := by
  unfold step
  split
  · cases e <;> simp [Ne.symm he]
  · rfl

theorem step_start {side : Side} {rank : ℤ} (hopens : env.opens name = true)
    (hname : logFilename env side.type rank = name) :
    step env files (.start side rank) name = some (header side rank) := by
  subst hname
  simp [step, Event.file, hopens]

theorem step_line {side : Side} {r : LogRecord} (hopens : env.opens name = true)
    (hname : logFilename env side.type r.serverRank = name) :
    (step env files (.line side r) name).getD [] = (files name).getD [] ++ r.line := by
  subst hname
  simp [step, Event.file, hopens]

/-- Without a start that names the file, it only grows. -/
theorem foldl_grows (files : Files) (hopens : env.opens name = true)
    (hstart : ∀ side rank, .start side rank ∈ es → logFilename env side.type rank ≠ name) :
    ((es.foldl (step env) files) name).getD [] =
      (files name).getD [] ++ (written env name es).flatten := by
  induction es generalizing files with
  | nil => simp [written]
  | cons e es ih =>
    have hrest := ih (step env files e) fun side rank hmem ↦
      hstart side rank (List.mem_cons_of_mem _ hmem)
    rw [List.foldl_cons, hrest]
    cases e with
    | start side rank =>
      have hne := hstart side rank List.mem_cons_self
      rw [step_other (.start side rank) hne]
      simp [written]
    | line side r =>
      by_cases hname : logFilename env side.type r.serverRank = name
      · rw [step_line hopens hname]
        simp [written, hname]
      · rw [step_other (.line side r) hname]
        simp [written, hname]

theorem bracket_mem_line (r : LogRecord) : '[' ∈ r.line := by
  simp [LogRecord.line, LogRecord.fields, bracketed]

theorem bracket_not_mem_header (side : Side) (rank : ℤ) : '[' ∉ header side rank := by
  have hdecimal : '[' ∉ decimal rank := not_mem_decimal (by decide) (by decide) rank
  cases side <;> simp [header, Side.type, Interception.client, hdecimal]

/-- Each bracket in a file comes from a line. -/
theorem count_foldl (files : Files) (es : List Event) (hopens : env.opens name = true) :
    (((es.foldl (step env) files) name).getD []).count '[' ≤
      ((files name).getD []).count '[' + (written env name es).flatten.count '[' := by
  induction es generalizing files with
  | nil => simp [written]
  | cons e es ih =>
    have hrest := ih (step env files e)
    rw [List.foldl_cons]
    cases e with
    | start side rank =>
      have hwritten : written env name (.start side rank :: es) = written env name es := by
        simp [written]
      rw [hwritten]
      by_cases hname : logFilename env side.type rank = name
      · rw [step_start hopens hname, Option.getD_some,
          List.count_eq_zero.mpr (bracket_not_mem_header side rank)] at hrest
        omega
      · rwa [step_other (.start side rank) hname] at hrest
    | line side r =>
      by_cases hname : logFilename env side.type r.serverRank = name
      · rw [step_line hopens hname, List.count_append] at hrest
        have hwritten : written env name (.line side r :: es) = r.line :: written env name es := by
          simp [written, hname]
        rw [hwritten, List.flatten_cons, List.count_append]
        omega
      · have hwritten : written env name (.line side r :: es) = written env name es := by
          simp [written, hname]
        rw [hwritten]
        rwa [step_other (.line side r) hname] at hrest

theorem written_nil_of_count (h : (written env name es).flatten.count '[' = 0) :
    written env name es = [] := by
  by_contra hne
  obtain ⟨l, hl⟩ := List.exists_mem_of_ne_nil _ hne
  obtain ⟨e, -, he⟩ := List.mem_filterMap.mp hl
  have hmem : '[' ∈ l := by
    cases e with
    | start side rank => cases he
    | line side r =>
      simp only at he
      split at he
      · cases he
        exact bracket_mem_line r
      · cases he
  exact List.count_eq_zero.mp h (List.mem_flatten.mpr ⟨l, hl, hmem⟩)

/-- Nothing has been written to the file when it is emptied. -/
def Early (env : Setup) (name : Path) (es : List Event) : Prop :=
  ∀ a side rank b, es = a ++ .start side rank :: b → logFilename env side.type rank = name →
    written env name a = []

theorem Early.tail {e : Event} (h : Early env name (e :: es)) : Early env name es := by
  intro a side rank b he hname
  have hfront := h (e :: a) side rank b (by rw [he]; rfl) hname
  rw [show e :: a = [e] ++ a from rfl, written_append] at hfront
  exact (List.append_eq_nil_iff.mp hfront).2

theorem Early.kept (files : Files) (hopens : env.opens name = true) (h : Early env name es) :
    ∃ front,
    ((es.foldl (step env) files) name).getD [] = front ++ (written env name es).flatten := by
  induction es generalizing files with
  | nil => exact ⟨(files name).getD [], by simp [written]⟩
  | cons e es ih =>
    rw [List.foldl_cons]
    cases e with
    | start side rank =>
      obtain ⟨front, hfront⟩ := ih (step env files (.start side rank)) h.tail
      exact ⟨front, by simpa [written] using hfront⟩
    | line side r =>
      by_cases hname : logFilename env side.type r.serverRank = name
      · refine ⟨(files name).getD [], ?_⟩
        rw [foldl_grows _ hopens, step_line hopens hname]
        · simp [written, hname]
        · intro side' rank' hmem hstart
          obtain ⟨a, b, rfl⟩ := List.append_of_mem hmem
          have hnil := h (.line side r :: a) side' rank' b rfl hstart
          simp [written, hname] at hnil
      · obtain ⟨front, hfront⟩ := ih (step env files (.line side r)) h.tail
        exact ⟨front, by simpa [written, hname] using hfront⟩

theorem early_of_kept (hopens : env.opens name = true) {front : Text}
    (h : (run env es name).getD [] = front ++ (written env name es).flatten) :
    Early env name es := by
  intro a side rank b he hname
  subst he
  apply written_nil_of_count
  have hcount := count_foldl (step env (run env a) (.start side rank)) b hopens
  rw [step_start hopens hname, Option.getD_some,
    List.count_eq_zero.mpr (bracket_not_mem_header side rank)] at hcount
  have hrun : run env (a ++ .start side rank :: b) =
      b.foldl (step env) (step env (run env a) (.start side rank)) := by simp [run]
  rw [← hrun, h] at hcount
  simp only [written_append, List.flatten_append, List.count_append] at hcount
  have hcons : written env name (.start side rank :: b) = written env name b := by simp [written]
  rw [hcons] at hcount
  omega

/-- The name of the file fits into its array. -/
def Fits (env : Setup) (side : Side) (rank : ℤ) : Prop :=
  env.logDir.length + side.type.length + (decimal rank).length + 11 ≤ 63

def Event.Fits (env : Setup) : Event → Prop
  | .start side rank => LogFiles.Fits env side rank
  | .line side r => LogFiles.Fits env side r.serverRank

instance (side : Side) (rank : ℤ) : Decidable (Fits env side rank) :=
  inferInstanceAs (Decidable (_ ≤ 63))

instance (e : Event) : Decidable (e.Fits env) :=
  match e with
  | .start side rank => inferInstanceAs (Decidable (LogFiles.Fits env side rank))
  | .line side r => inferInstanceAs (Decidable (LogFiles.Fits env side r.serverRank))

variable {side side' : Side} {rank rank' : ℤ}

theorem logFilename_of_fits (h : Fits env side rank) : logFilename env side.type rank =
    env.logDir ++ '/' :: (side.type ++ (['_', 'n', 'o', 'd', 'e', '_'] ++ (decimal rank ++
      ['.', 'l', 'o', 'g']))) := by
  rw [logFilename, List.take_of_length_le]
  · simp
  · unfold Fits at h
    simp
    omega

theorem logFilename_eq_iff (h : Fits env side rank) (h' : Fits env side' rank') :
    logFilename env side.type rank = logFilename env side'.type rank' ↔
      side = side' ∧ rank = rank' := by
  rw [logFilename_of_fits h, logFilename_of_fits h']
  constructor
  · intro he
    have htype := (List.cons.inj (List.append_cancel_left he)).2
    have hside : side = side' := by
      cases side <;> cases side' <;> simp [Side.type, Interception.client] at htype ⊢
    subst hside
    have hrank := List.append_cancel_left (List.append_cancel_left htype)
    exact ⟨rfl, decimal_injective (List.append_cancel_right hrank)⟩
  · rintro ⟨rfl, rfl⟩
    rfl

/-- The lines of one side about a server. -/
def about (side : Side) (rank : ℤ) (es : List Event) : List LogRecord :=
  es.filterMap fun
    | .line side' r => if side' = side ∧ r.serverRank = rank then some r else none
    | .start _ _ => none

theorem written_eq_about (h : Fits env side rank) (hfits : ∀ e ∈ es, e.Fits env) :
    written env (logFilename env side.type rank) es =
      (about side rank es).map LogRecord.line := by
  induction es with
  | nil => rfl
  | cons e es ih =>
    have hrest := ih fun e' hmem ↦ hfits e' (List.mem_cons_of_mem _ hmem)
    cases e with
    | start side' rank' => simpa [written, about] using hrest
    | line side' r =>
      have hiff := logFilename_eq_iff (hfits (.line side' r) List.mem_cons_self) h
      by_cases hname : side' = side ∧ r.serverRank = rank
      · have hsame := hiff.mpr hname
        simpa [written, about, hname, hsame] using hrest
      · have hother := mt hiff.mp hname
        simpa [written, about, hname, hother] using hrest

/-- Where the names fit, every line about a server is kept exactly if no process of that rank
starts on the same side after the first of them; where the directory fills the array, all
processes share one file. -/
theorem lines_kept (env : Setup) (es : List Event) (side : Side) (rank : ℤ)
    (hopens : env.opens (logFilename env side.type rank) = true) :
    (Fits env side rank → (∀ e ∈ es, e.Fits env) →
      ((∃ front, (run env es (logFilename env side.type rank)).getD [] =
          front ++ (about side rank es).flatMap LogRecord.line) ↔
        ∀ a b, es = a ++ .start side rank :: b → about side rank a = [])) ∧
    (62 ≤ env.logDir.length → ∀ (side' : Side) (rank' : ℤ),
      logFilename env side'.type rank' = logFilename env side.type rank) := by
  refine ⟨fun hfit hfits ↦ ?_, fun hlong side' rank' ↦ ?_⟩
  · rw [List.flatMap_def, ← written_eq_about hfit hfits]
    constructor
    · rintro ⟨front, hfront⟩ a b he
      have hnil := early_of_kept hopens hfront a side rank b he rfl
      rw [written_eq_about hfit fun e hmem ↦ hfits e (he ▸ List.mem_append_left _ hmem)] at hnil
      exact List.map_eq_nil_iff.mp hnil
    · intro hlate
      refine Early.kept _ hopens fun a side' rank' b he hname ↦ ?_
      have hstart : Fits env side' rank' :=
        hfits (.start side' rank') (he ▸ List.mem_append_right _ List.mem_cons_self)
      obtain ⟨rfl, rfl⟩ := (logFilename_eq_iff hstart hfit).mp hname
      rw [written_eq_about hfit fun e hmem ↦ hfits e (he ▸ List.mem_append_left _ hmem),
        hlate a b he]
      rfl
  · have hname (side : Side) (rank : ℤ) :
        logFilename env side.type rank = (env.logDir ++ ['/']).take 63 := by
      have hlen : 63 ≤ (env.logDir ++ ['/']).length := by
        simp
        omega
      have hsplit : env.logDir ++ '/' :: side.type ++ ['_', 'n', 'o', 'd', 'e', '_'] ++
          decimal rank ++ ['.', 'l', 'o', 'g'] = (env.logDir ++ ['/']) ++ (side.type ++
            (['_', 'n', 'o', 'd', 'e', '_'] ++ (decimal rank ++ ['.', 'l', 'o', 'g']))) := by simp
      rw [logFilename, hsplit, List.take_append_of_le_length hlen]
    rw [hname, hname]

/-- A client of rank 1 writes about the server of rank 0, then the client of rank 0 starts. -/
def lateStart : List Event :=
  [.line .client ⟨samplePath, ['o', 'p', 'e', 'n'], 0, 1, 0, ['C'], 3, -1, 0, 0⟩, .start .client 0]

theorem lines_kept_late_start :
    ¬∃ front, (run loggingSetup lateStart (logFilename loggingSetup Side.client.type 0)).getD [] =
      front ++ (about .client 0 lateStart).flatMap LogRecord.line := by
  intro h
  have hkept := (lines_kept loggingSetup lateStart .client 0 rfl).1 (by decide) (by decide)
  have hnil := hkept.mp h (lateStart.take 1) [] rfl
  exact absurd hnil (by decide)

end FTCache.LogFiles
