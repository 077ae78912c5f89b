import FTCache.Redistribution
import Mathlib.Data.Char
import Mathlib.Data.List.Lex

/-! The table that the load simulation writes after a server has failed. -/

namespace FTCache.DistributionReport

open HashRing Redistribution

variable {κ : Type} [LinearOrder κ]

/-- `std::map<string, int>`. -/
abbrev Counts := OrderedMap Str ℕ

/-- `counts[server]++`. -/
def increment (counts : Counts) (server : Str) : Counts :=
  counts.insert server ((counts.find server).getD 0 + 1)

/-- `original_distribution` and `server_to_data`. -/
structure Tally where
  counts : Counts := .empty
  data : PMap Str (List Str) := fun _ ↦ none

def tallyFile (h : HashRing Str κ) (t : Tally) (file : Str) : Except String Tally :=
  (h.getServer file).map fun server ↦
    { counts := increment t.counts server
      data := t.data.insert server (t.data.index server ++ [file]) }

/-- `new_distribution`. -/
def recount (h : HashRing Str κ) (counts : Counts) (file : Str) : Except String Counts :=
  (h.getServer file).map (increment counts)

/-- A line of the table below its header. -/
structure Row where
  server : Str
  countBefore : ℕ
  countAfter : ℕ
  gainedData : Bool
  deriving DecidableEq

/-- The loop of `writeDetailedData`. -/
def detailedData (before after : Counts) : List Row :=
  before.entries.map fun e ↦
    let countAfter := (after.find e.1).getD 0
    ⟨e.1, e.2, countAfter, decide (e.2 < countAfter)⟩

/-- One round of the outer loop of `main`: the ring `h` is full when the files are counted. -/
def report (h : HashRing Str κ) (failed : Str) (files : List Str) : Except String (List Row) := do
  let t ← files.foldlM (tallyFile h) {}
  let after ← (t.data.index failed).foldlM (recount (h.removeServer failed))
    (t.counts.insert failed 0)
  return detailedData t.counts after

/-- The server of a file, where there is one. -/
def owner (h : HashRing Str κ) (file : Str) : Str := (h.getServer file).toOption.getD []

section Loops

variable {h : HashRing Str κ} {files : List Str}

theorem owner_eq {file server : Str} (hs : h.getServer file = .ok server) :
    owner h file = server := by
  rw [owner, hs]
  rfl

theorem find_increment (counts : Counts) (server s : Str) :
    ((increment counts server).find s).getD 0 =
      (counts.find s).getD 0 + if server = s then 1 else 0 := by
  rw [increment, OrderedMap.find_insert]
  by_cases hs : s = server
  · simp [hs]
  · simp [hs, Ne.symm hs]

theorem increment_isSome (counts : Counts) (server s : Str) :
    ((increment counts server).find s).isSome ↔ server = s ∨ (counts.find s).isSome := by
  rw [increment, OrderedMap.find_insert]
  by_cases hs : s = server
  · simp [hs]
  · simp [hs, Ne.symm hs]

/-- A loop that counts files under their servers has looked each of them up. -/
structure Counted (h : HashRing Str κ) (files : List Str) (counts counts' : Counts) : Prop where
  found : ∀ file ∈ files, h.getServer file = .ok (owner h file)
  count : ∀ s, (counts'.find s).getD 0 = (counts.find s).getD 0 + files.countP (owner h · = s)
  bucket : ∀ s, (counts'.find s).isSome ↔
    (counts.find s).isSome ∨ ∃ file ∈ files, owner h file = s

theorem Counted.nil (h : HashRing Str κ) (counts : Counts) : Counted h [] counts counts :=
  ⟨by simp, by simp, by simp⟩

theorem Counted.cons {file server : Str} {counts counts' : Counts}
    (hs : h.getServer file = .ok server)
    (hrest : Counted h files (increment counts server) counts') :
    Counted h (file :: files) counts counts' := by
  have ho := owner_eq hs
  refine ⟨?_, fun s ↦ ?_, fun s ↦ ?_⟩
  · rintro f (_ | ⟨_, hf⟩)
    · rw [ho, hs]
    · exact hrest.found f hf
  · rw [hrest.count, find_increment, List.countP_cons, ho]
    by_cases hx : server = s
    · simp [hx]
      omega
    · simp [hx]
  · rw [hrest.bucket, increment_isSome]
    simp only [List.mem_cons, exists_eq_or_imp, ho]
    tauto

theorem recount_counted {counts counts' : Counts}
    (hr : files.foldlM (recount h) counts = .ok counts') : Counted h files counts counts' := by
  induction files generalizing counts with
  | nil =>
    cases hr
    exact .nil h _
  | cons file files ih =>
    rw [List.foldlM_cons, recount] at hr
    cases hs : h.getServer file with
    | error e =>
      rw [hs] at hr
      cases hr
    | ok server =>
      rw [hs] at hr
      exact .cons hs (ih hr)

theorem tally_counted {t t' : Tally} (hr : files.foldlM (tallyFile h) t = .ok t') :
    Counted h files t.counts t'.counts ∧
      ∀ s, t'.data.index s = t.data.index s ++ files.filter (owner h · = s) := by
  induction files generalizing t with
  | nil =>
    cases hr
    exact ⟨.nil h _, by simp⟩
  | cons file files ih =>
    rw [List.foldlM_cons, tallyFile] at hr
    cases hs : h.getServer file with
    | error e =>
      rw [hs] at hr
      cases hr
    | ok server =>
      rw [hs] at hr
      obtain ⟨hcounted, hdata⟩ := ih hr
      refine ⟨.cons hs hcounted, fun s ↦ ?_⟩
      rw [hdata, List.filter_cons, owner_eq hs]
      by_cases hx : server = s
      · simp [PMap.index, hx]
      · simp [PMap.index, hx, Ne.symm hx]

end Loops

section Report

variable {h : HashRing Str κ} {failed : Str} {files : List Str} {rows : List Row}

/-- The servers with a row count a list once for each of its members they own. -/
theorem sum_countP {servers : List Str} (hnodup : servers.Nodup) (f : Str → Str)
    (l : List Str) :
    (servers.map fun s ↦ l.countP (f · = s)).sum = l.countP (f · ∈ servers) := by
  induction servers with
  | nil => simp
  | cons s servers ih =>
    obtain ⟨hs, hnodup⟩ := List.nodup_cons.mp hnodup
    rw [List.map_cons, List.sum_cons, ih hnodup, List.countP_eq_length_filter,
      List.countP_eq_length_filter, List.countP_eq_length_filter, ← List.length_append]
    refine (List.Perm.length_eq ?_).symm
    have hsplit := List.filter_append_perm (f · = s) (l.filter (f · ∈ s :: servers))
    rw [List.filter_filter, List.filter_filter] at hsplit
    refine hsplit.symm.trans (List.Perm.append (.of_eq ?_) (.of_eq ?_))
    · refine List.filter_congr fun a _ ↦ ?_
      by_cases ha : f a = s <;> simp [ha]
    · refine List.filter_congr fun a _ ↦ ?_
      by_cases ha : f a = s <;> simp [ha, hs]

theorem report_eq_ok (hr : report h failed files = .ok rows) : ∃ t after,
    files.foldlM (tallyFile h) {} = .ok t ∧
      (t.data.index failed).foldlM (recount (h.removeServer failed)) (t.counts.insert failed 0) =
        .ok after ∧ rows = detailedData t.counts after := by
  unfold report at hr
  cases ht : files.foldlM (tallyFile h) {} with
  | error e =>
    rw [ht] at hr
    cases hr
  | ok t =>
    rw [ht] at hr
    cases ha : (t.data.index failed).foldlM (recount (h.removeServer failed))
        (t.counts.insert failed 0) with
    | error e =>
      simp [ha, bind, Except.bind] at hr
    | ok after =>
      simp only [ha, bind, Except.bind, pure, Except.pure, Except.ok.injEq] at hr
      exact ⟨t, after, rfl, ha, hr.symm⟩

theorem detailedData_server (before after : Counts) :
    (detailedData before after).map Row.server = before.entries.map Prod.fst := by
  rw [detailedData, List.map_map]
  rfl

theorem mem_servers (before after : Counts) (s : Str) :
    s ∈ (detailedData before after).map Row.server ↔ (before.find s).isSome := by
  rw [detailedData_server, List.mem_map, Option.isSome_iff_exists]
  constructor
  · rintro ⟨e, he, rfl⟩
    exact ⟨e.2, OrderedMap.find_eq_some.mpr he⟩
  · rintro ⟨c, hc⟩
    exact ⟨(s, c), OrderedMap.find_eq_some.mp hc, rfl⟩

/-- The files the failed server owned. -/
def moved (h : HashRing Str κ) (failed : Str) (files : List Str) : List Str :=
  files.filter (owner h · = failed)

/-- What a line says of its server. -/
structure Says (h : HashRing Str κ) (failed : Str) (files : List Str) (row : Row) : Prop where
  countBefore : row.countBefore = files.countP (owner h · = row.server)
  countAfter : row.countAfter = (if row.server = failed then 0 else row.countBefore) +
    (moved h failed files).countP (owner (h.removeServer failed) · = row.server)
  gainedData : row.gainedData = true ↔ row.server ≠ failed ∧
    ∃ file ∈ moved h failed files, owner (h.removeServer failed) file = row.server

theorem says_of_counts {row : Row}
    (hb : row.countBefore = files.countP (owner h · = row.server))
    (ha : row.countAfter = (if row.server = failed then 0 else row.countBefore) +
      (moved h failed files).countP (owner (h.removeServer failed) · = row.server))
    (hg : row.gainedData = decide (row.countBefore < row.countAfter)) :
    Says h failed files row := by
  refine ⟨hb, ha, ?_⟩
  rw [hg, decide_eq_true_iff, ha]
  by_cases hs : row.server = failed
  · -- the failed server owned what has moved, and cannot get more back
    have hle : (moved h failed files).countP (owner (h.removeServer failed) · = row.server) ≤
        row.countBefore := by
      rw [hb, hs, List.countP_eq_length_filter (p := (owner h · = failed))]
      exact List.countP_le_length
    simp only [hs, ↓reduceIte, ne_eq, not_true_eq_false, false_and, iff_false, not_lt, Nat.zero_add]
    rwa [hs] at hle
  · simp only [hs, ↓reduceIte, ne_eq, not_false_eq_true, true_and, Nat.lt_add_right_iff_pos,
      List.countP_pos_iff, decide_eq_true_eq]

theorem report_found (hr : report h failed files = .ok rows) :
    (∀ file ∈ files, h.getServer file = .ok (owner h file)) ∧
      ∀ file ∈ moved h failed files, (h.removeServer failed).getServer file =
        .ok (owner (h.removeServer failed) file) := by
  obtain ⟨t, after, ht, hafter, -⟩ := report_eq_ok hr
  obtain ⟨hbefore, hdata⟩ := tally_counted ht
  have hmoved : t.data.index failed = moved h failed files := by
    rw [hdata]
    rfl
  rw [hmoved] at hafter
  exact ⟨hbefore.found, (recount_counted hafter).found⟩

theorem report_says (hr : report h failed files = .ok rows) :
    (rows.map Row.server).Pairwise (· < ·) ∧
    (∀ s, s ∈ rows.map Row.server ↔ ∃ file ∈ files, owner h file = s) ∧
    ∀ row ∈ rows, Says h failed files row := by
  obtain ⟨t, after, ht, hafter, rfl⟩ := report_eq_ok hr
  obtain ⟨hbefore, hdata⟩ := tally_counted ht
  have hmoved : t.data.index failed = moved h failed files := by
    rw [hdata]
    rfl
  rw [hmoved] at hafter
  have hrecount := recount_counted hafter
  refine ⟨?_, fun s ↦ ?_, fun row hrow ↦ ?_⟩
  · rw [detailedData_server]
    exact List.pairwise_map.mpr t.counts.sorted
  · rw [mem_servers, hbefore.bucket]
    simp [OrderedMap.find_empty]
  · obtain ⟨e, he, rfl⟩ := List.mem_map.mp hrow
    have hfind : t.counts.find e.1 = some e.2 := OrderedMap.find_eq_some.mpr he
    have hb : e.2 = files.countP (owner h · = e.1) := by
      have hcount := hbefore.count e.1
      simpa [hfind, OrderedMap.find_empty] using hcount
    refine says_of_counts hb ?_ rfl
    have hcount := hrecount.count e.1
    rw [OrderedMap.find_insert] at hcount
    by_cases hs : e.1 = failed
    · simpa [hs] using hcount
    · simpa [hs, hfind] using hcount

theorem sum_before (hr : report h failed files = .ok rows) :
    (rows.map Row.countBefore).sum = files.length := by
  obtain ⟨hsorted, hmem, hsay⟩ := report_says hr
  have hcounts : rows.map Row.countBefore =
      (rows.map Row.server).map fun s ↦ files.countP (owner h · = s) := by
    rw [List.map_map]
    exact List.map_congr_left fun row hrow ↦ (hsay row hrow).countBefore
  rw [hcounts, sum_countP (hsorted.imp fun h ↦ h.ne) (owner h) files, List.countP_eq_length]
  exact fun file hfile ↦ decide_eq_true ((hmem _).mpr ⟨file, hfile, rfl⟩)

/-- The files that no line counts went to servers which had none before. -/
theorem sum_after (hr : report h failed files = .ok rows) :
    (rows.map Row.countAfter).sum + (moved h failed files).length = files.length +
      (moved h failed files).countP
        fun file ↦ decide (owner (h.removeServer failed) file ∈ rows.map Row.server) := by
  obtain ⟨hsorted, hmem, hsay⟩ := report_says hr
  have hnodup : (rows.map Row.server).Nodup := hsorted.imp fun h ↦ h.ne
  have hkept : (rows.map fun row ↦ if row.server = failed then 0 else row.countBefore).sum +
      (moved h failed files).length = files.length := by
    have hrow : (rows.map fun row ↦ if row.server = failed then 0 else row.countBefore) =
        (rows.map Row.server).map fun s ↦
          (files.filter (owner h · ≠ failed)).countP (owner h · = s) := by
      rw [List.map_map]
      refine List.map_congr_left fun row hrow ↦ ?_
      rw [(hsay row hrow).countBefore, Function.comp, List.countP_filter]
      by_cases hs : row.server = failed
      · rw [if_pos hs, eq_comm, List.countP_eq_zero]
        simp [hs]
      · rw [if_neg hs]
        refine List.countP_congr fun file _ ↦ ?_
        by_cases hf : owner h file = row.server <;> simp [hf, hs]
    have hall : (files.filter (owner h · ≠ failed)).countP
        (fun file ↦ decide (owner h file ∈ rows.map Row.server)) =
          (files.filter (owner h · ≠ failed)).length :=
      List.countP_eq_length.mpr fun file hfile ↦
        decide_eq_true ((hmem _).mpr ⟨file, List.mem_of_mem_filter hfile, rfl⟩)
    rw [hrow, sum_countP hnodup, hall, moved, Nat.add_comm]
    simpa using (List.length_eq_length_filter_add (owner h · = failed)).symm
  have hcounts : (rows.map Row.countAfter).sum =
      (rows.map fun row ↦ if row.server = failed then 0 else row.countBefore).sum +
        ((rows.map Row.server).map fun s ↦
          (moved h failed files).countP (owner (h.removeServer failed) · = s)).sum := by
    rw [List.map_map, ← List.sum_map_add]
    exact congrArg List.sum (List.map_congr_left fun row hrow ↦ (hsay row hrow).countAfter)
  rw [hcounts, sum_countP hnodup]
  omega

/-- The table written after a failure has a line for each server that owned a file, in the
order of the names, with what the server owned and what it owns once the files of the
failed one are looked up again. It counts every file exactly if none of these goes to
a server that owned nothing before. -/
theorem report_accounts (h : HashRing Str κ) (failed : Str) (files : List Str) (rows : List Row)
    (hr : report h failed files = .ok rows) :
    (rows.map Row.server).Pairwise (· < ·) ∧
    (∀ s, s ∈ rows.map Row.server ↔ ∃ file ∈ files, h.getServer file = .ok s) ∧
    (∀ row ∈ rows, Says h failed files row) ∧
    (rows.map Row.countBefore).sum = files.length ∧
    ((rows.map Row.countAfter).sum = files.length ↔
      ∀ file ∈ files, h.getServer file = .ok failed →
        ∃ f ∈ files, h.getServer f = (h.removeServer failed).getServer file) := by
  obtain ⟨hsorted, hmem, hsay⟩ := report_says hr
  obtain ⟨hfound, hmoved⟩ := report_found hr
  have howner {file s : Str} (hfile : file ∈ files) : h.getServer file = .ok s ↔
      owner h file = s := by
    rw [hfound file hfile]
    simp
  have hiff (s : Str) : s ∈ rows.map Row.server ↔ ∃ file ∈ files, h.getServer file = .ok s := by
    rw [hmem]
    exact exists_congr fun file ↦ and_congr_right fun hfile ↦ (howner hfile).symm
  refine ⟨hsorted, hiff, hsay, sum_before hr, ?_⟩
  have hsum := sum_after hr
  have hcount : (rows.map Row.countAfter).sum = files.length ↔
      (moved h failed files).countP
        (fun file ↦ decide (owner (h.removeServer failed) file ∈ rows.map Row.server)) =
          (moved h failed files).length := by
    omega
  rw [hcount, List.countP_eq_length]
  constructor
  · intro hx file hfile hfailed
    have hin : file ∈ moved h failed files :=
      List.mem_filter.mpr ⟨hfile, decide_eq_true ((howner hfile).mp hfailed)⟩
    rw [hmoved file hin]
    exact (hiff _).mp (of_decide_eq_true (hx file hin))
  · intro hx file hin
    obtain ⟨hfile, hfailed⟩ := List.mem_filter.mp hin
    have hsome := hx file hfile ((howner hfile).mpr (of_decide_eq_true hfailed))
    rw [hmoved file hin] at hsome
    exact decide_eq_true ((hiff _).mpr hsome)

def sampleRing : HashRing Str ℕ :=
  Placement.run 1 LivePlacement.sampleHash [.add ['a'], .add ['b'], .add ['c']]

/-- The only file of `b` goes to `c`, which owned none and has no line. -/
theorem report_accounts_lost :
    ([⟨['a'], 1, 1, false⟩, ⟨['b'], 1, 0, false⟩] : List Row).map Row.countBefore = [1, 1] ∧
      (([⟨['a'], 1, 1, false⟩, ⟨['b'], 1, 0, false⟩].map Row.countAfter).sum = 2 ↔
        ∀ file ∈ [['a', '0'], ['b', '0']], sampleRing.getServer file = .ok (['b'] : Str) →
          ∃ f ∈ [['a', '0'], ['b', '0']], sampleRing.getServer f =
            (sampleRing.removeServer ['b']).getServer file) :=
  ⟨rfl, (report_accounts sampleRing ['b'] [['a', '0'], ['b', '0']]
    [⟨['a'], 1, 1, false⟩, ⟨['b'], 1, 0, false⟩] (by decide +kernel)).2.2.2.2⟩

end Report

section Siblings

variable (h : HashRing Str κ)

/-- The maps that `GetDistribution` stands for in `main`. -/
def mainMaps (d : PMap Str (List Str)) : Distribution := ⟨fun s ↦ (d s).map List.length, d⟩

def Tally.maps (t : Tally) : Distribution := ⟨t.counts.find, t.data⟩

theorem tally_countFile (t : Tally) (file : Str) :
    (tallyFile h t file).map Tally.maps = countFile h t.maps file := by
  unfold tallyFile countFile
  cases h.getServer file with
  | error e => rfl
  | ok server =>
    have hcounts : (increment t.counts server).find =
        t.maps.counts.insert server (t.maps.counts.index server + 1) := by
      funext s
      rw [increment, OrderedMap.find_insert]
      by_cases hs : s = server
      · subst hs
        simp [Tally.maps, PMap.index]
      · simp [Tally.maps, hs]
    simp only [Except.map, ← hcounts]
    rfl

theorem distribute_countFile (d : PMap Str (List Str)) (file : Str) :
    (h.distribute d file).map mainMaps = countFile h (mainMaps d) file := by
  unfold distribute countFile
  cases h.getServer file with
  | error e => rfl
  | ok server =>
    have hlength : (mainMaps d).counts.index server = (d.index server).length := by
      change ((d server).map List.length).getD 0 = _
      rw [PMap.index]
      cases d server <;> rfl
    have hcounts : (mainMaps (d.insert server (d.index server ++ [file]))).counts =
        (mainMaps d).counts.insert server ((mainMaps d).counts.index server + 1) := by
      funext s
      by_cases hs : s = server
      · simp [mainMaps, hs, ← hlength]
      · simp [mainMaps, hs]
    simp only [Except.map, ← hcounts]
    rfl

/-- A fold that another one mirrors step by step comes to the mirrored end. -/
theorem foldlM_map {σ τ : Type} {f : σ → Str → Except String σ} {g : τ → Str → Except String τ}
    {m : σ → τ} (hstep : ∀ s file, (f s file).map m = g (m s) file) (files : List Str) (s : σ) :
    (files.foldlM f s).map m = files.foldlM g (m s) := by
  induction files generalizing s with
  | nil => rfl
  | cons file files ih =>
    rw [List.foldlM_cons, List.foldlM_cons, ← hstep]
    cases f s file with
    | error e => rfl
    | ok s' => exact ih s'

theorem tally_main (files : List Str) :
    (files.foldlM (tallyFile h) {}).map Tally.maps = (h.getDistribution files).map mainMaps := by
  have hstart : ({} : Tally).maps = mainMaps fun _ ↦ none := rfl
  rw [foldlM_map (tally_countFile h), hstart]
  exact (foldlM_map (distribute_countFile h) files _).symm

theorem getDistribution_data {files : List Str} {d : PMap Str (List Str)}
    (hd : h.getDistribution files = .ok d) :
    (∀ file ∈ files, h.getServer file = .ok (owner h file)) ∧
      ∀ s, d.index s = files.filter (owner h · = s) := by
  have hmaps := tally_main h files
  rw [hd] at hmaps
  cases ht : files.foldlM (tallyFile h) {} with
  | error e =>
    rw [ht] at hmaps
    cases hmaps
  | ok t =>
    rw [ht] at hmaps
    have hdata : t.data = d := congrArg Distribution.data (Except.ok.inj hmaps)
    obtain ⟨hcounted, hindex⟩ := tally_counted ht
    refine ⟨hcounted.found, fun s ↦ ?_⟩
    rw [← hdata, hindex]
    rfl

/-- `GetDistribution` puts each item once into the bucket of its server, in the order given.
The loop of `main` builds its buckets, and their sizes, over again. -/
theorem getDistribution_main (files : List Str) :
    (files.foldlM (tallyFile h) {}).map Tally.maps = (h.getDistribution files).map mainMaps ∧
    ∀ d, h.getDistribution files = .ok d → ∀ s,
      d.index s = files.filter (h.getServer · = .ok s) ∧
        ((d s).isSome → ∃ file ∈ files, h.getServer file = .ok s) := by
  refine ⟨tally_main h files, fun d hd s ↦ ⟨?_, fun hs ↦ getDistribution_bucket hd hs⟩⟩
  obtain ⟨hfound, hindex⟩ := getDistribution_data h hd
  rw [hindex]
  refine List.filter_congr fun file hfile ↦ ?_
  rw [hfound file hfile]
  simp

end Siblings

end FTCache.DistributionReport
