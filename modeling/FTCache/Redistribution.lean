import FTCache.LivePlacement

namespace FTCache.Redistribution

open HashRing Placement LivePlacement

variable {κ : Type} [LinearOrder κ]

def serverName (i : ℕ) : Str := ['S', 'e', 'r', 'v', 'e', 'r'] ++ toStr i

/-- The ring of `main`: `Server1` to `ServerN`, added in that order. -/
def fullRing (vNode : ℕ) (hash : Str → κ) (n : ℕ) : HashRing Str κ :=
  run vNode hash ((List.range n).map fun i ↦ .add (serverName (i + 1)))

/-- `original_distribution` and `server_to_data`. -/
structure Distribution where
  counts : PMap Str ℕ
  data : PMap Str (List Str)

def countFile (h : HashRing Str κ) (d : Distribution) (file : Str) : Except String Distribution :=
  (h.getServer file).map fun server ↦
    { counts := d.counts.insert server (d.counts.index server + 1)
      data := d.data.insert server (d.data.index server ++ [file]) }

/-- The loop over all files, with the ring as it is. -/
def distribution (h : HashRing Str κ) (files : List Str) : Except String Distribution :=
  files.foldlM (countFile h) ⟨fun _ ↦ none, fun _ ↦ none⟩

def recountFile (h : HashRing Str κ) (counts : PMap Str ℕ) (file : Str) :
    Except String (PMap Str ℕ) :=
  (h.getServer file).map fun server ↦ counts.insert server (counts.index server + 1)

/-- `new_distribution`: only the files of the failed server are looked up again. -/
def redistribution (h : HashRing Str κ) (d : Distribution) (failed : Str) :
    Except String (PMap Str ℕ) :=
  (d.data.index failed).foldlM (recountFile h) (d.counts.insert failed 0)

/-- The counts `main` builds after a failure are those of the ring it has then. -/
def CountsExact (h : HashRing Str κ) (failed : Str) (files : List Str) : Prop :=
  ∃ d counts d', distribution h files = .ok d ∧
    redistribution (h.removeServer failed) d failed = .ok counts ∧
    distribution (h.removeServer failed) files = .ok d' ∧
    ∀ server, counts.index server = d'.counts.index server

/-- Removing a server changes the owner of no file that it did not own. -/
def OwnersKept (h : HashRing Str κ) (failed : Str) : Prop :=
  ∀ file server : Str, h.getServer file = .ok server → server ≠ failed →
    (h.removeServer failed).getServer file = .ok server

section Counting

variable {h : HashRing Str κ} {owner : Str → Str}

theorem distribution_from (hown : ∀ file, h.getServer file = .ok (owner file)) (files : List Str)
    (d : Distribution) : ∃ d', files.foldlM (countFile h) d = .ok d' ∧ ∀ server,
      d'.counts.index server = d.counts.index server + files.countP (owner · = server) ∧
      d'.data.index server = d.data.index server ++ files.filter (owner · = server) := by
  induction files generalizing d with
  | nil => exact ⟨d, rfl, by simp⟩
  | cons file files ih =>
    rw [List.foldlM_cons, countFile, hown]
    obtain ⟨d', hd', hindex⟩ := ih
      { counts := d.counts.insert (owner file) (d.counts.index (owner file) + 1)
        data := d.data.insert (owner file) (d.data.index (owner file) ++ [file]) }
    refine ⟨d', hd', fun server ↦ ?_⟩
    obtain ⟨hcounts, hdata⟩ := hindex server
    rw [hcounts, hdata]
    by_cases he : owner file = server
    · subst he
      constructor
      · simp [PMap.index]
        omega
      · simp [PMap.index]
    · simp [PMap.index, he, Ne.symm he]

theorem redistribution_from (hown : ∀ file, h.getServer file = .ok (owner file))
    (files : List Str) (counts : PMap Str ℕ) :
    ∃ counts', files.foldlM (recountFile h) counts = .ok counts' ∧ ∀ server,
      counts'.index server = counts.index server + files.countP (owner · = server) := by
  induction files generalizing counts with
  | nil => exact ⟨counts, rfl, by simp⟩
  | cons file files ih =>
    rw [List.foldlM_cons, recountFile, hown]
    obtain ⟨counts', hc, hindex⟩ :=
      ih (counts.insert (owner file) (counts.index (owner file) + 1))
    refine ⟨counts', hc, fun server ↦ ?_⟩
    rw [hindex]
    by_cases he : owner file = server
    · subst he
      simp [PMap.index]
      omega
    · simp [PMap.index, he, Ne.symm he]

/-- The files of a failed server are counted where they go, all others where they were. -/
theorem countP_moved {failed : Str} {owner' : Str → Str}
    (hkept : ∀ file, owner file ≠ failed → owner' file = owner file) (files : List Str)
    (server : Str) :
    (if server = failed then 0 else files.countP (owner · = server)) +
        (files.filter (owner · = failed)).countP (owner' · = server) =
      files.countP (owner' · = server) := by
  induction files with
  | nil => simp
  | cons file files ih =>
    by_cases hf : owner file = failed
    · by_cases hs : server = failed
      · simp_all [List.countP_cons]
      · simp only [List.countP_cons, hf, hs, Ne.symm hs, decide_false, decide_true,
          List.filter_cons_of_pos, ↓reduceIte, Bool.false_eq_true] at ih ⊢
        omega
    · rw [List.countP_cons, List.countP_cons, hkept file hf, List.filter_cons_of_neg (by simpa)]
      by_cases hs : server = failed
      · have hne : owner file ≠ server := fun he ↦ hf (he.trans hs)
        simp_all
      · simp only [hs, ↓reduceIte] at ih ⊢
        omega

theorem countsExact_of_kept {failed : Str} {owner' : Str → Str}
    (hown : ∀ file, h.getServer file = .ok (owner file))
    (hown' : ∀ file, (h.removeServer failed).getServer file = .ok (owner' file))
    (hkept : ∀ file, owner file ≠ failed → owner' file = owner file) (files : List Str) :
    CountsExact h failed files := by
  obtain ⟨d, hd, hdi⟩ := distribution_from hown files ⟨fun _ ↦ none, fun _ ↦ none⟩
  obtain ⟨d', hd', hdi'⟩ := distribution_from hown' files ⟨fun _ ↦ none, fun _ ↦ none⟩
  obtain ⟨counts, hc, hci⟩ := redistribution_from hown' (d.data.index failed)
    (d.counts.insert failed 0)
  refine ⟨d, counts, d', hd, hc, hd', fun server ↦ ?_⟩
  have hdata : d.data.index failed = files.filter (owner · = failed) := by
    rw [(hdi failed).2]
    rfl
  have hcounts : (d.counts.insert failed 0).index server =
      if server = failed then 0 else files.countP (owner · = server) := by
    have hi := (hdi server).1
    by_cases hs : server = failed
    · simp [PMap.index, hs]
    · simpa [PMap.index, hs] using hi
  rw [hci, (hdi' server).1, hdata, hcounts, countP_moved hkept]
  simp [PMap.index]

end Counting

section Names

theorem value_toStr (n : ℕ) : Nat.ofDigitChars 10 (toStr n) 0 = n := Nat.ofDigitChars_ten_toDigits

theorem value_append (s t : Str) : Nat.ofDigitChars 10 (s ++ t) 0 =
    10 ^ t.length * Nat.ofDigitChars 10 s 0 + Nat.ofDigitChars 10 t 0 := by
  rw [Nat.ofDigitChars_append, Nat.ofDigitChars_eq_ofDigitChars_zero]

/-- Digits that a number loses at its end and another has at its beginning. -/
theorem moved_digits {i j r r' : ℕ} {w : Str} (hj : toStr j = toStr i ++ w)
    (hr : toStr r = w ++ toStr r') (hw : w ≠ []) : 10 ≤ r ∧ 10 * i + 1 ≤ j := by
  have hjv := congrArg (fun ds ↦ Nat.ofDigitChars 10 ds 0) hj
  have hrv := congrArg (fun ds ↦ Nat.ofDigitChars 10 ds 0) hr
  simp only [value_append, value_toStr] at hjv hrv
  have hpow (s : Str) (hs : s ≠ []) : 10 ≤ 10 ^ s.length := by
    have hlen := List.length_pos_iff.mpr hs
    exact Nat.le_self_pow (by omega) 10
  have hval : 1 ≤ Nat.ofDigitChars 10 w 0 := by
    by_contra hz
    have hz : Nat.ofDigitChars 10 w 0 = 0 := by omega
    obtain rfl : r = r' := by simpa [hz] using hrv
    exact hw (List.self_eq_append_left.mp hr)
  constructor
  · have hmul := Nat.mul_le_mul (hpow (toStr r') Nat.toDigits_ne_nil) hval
    omega
  · have hmul := Nat.mul_le_mul_right i (hpow w hw)
    omega

theorem label_serverName (i r : ℕ) :
    label (serverName i) r = ['S', 'e', 'r', 'v', 'e', 'r'] ++ (toStr i ++ toStr r) := by
  have hnul : Char.ofNat 0 ∉ stringify (serverName i) := by
    rw [show stringify (serverName i) = ['S', 'e', 'r', 'v', 'e', 'r'] ++ toStr i from rfl,
      List.mem_append, not_or]
    exact ⟨by decide, nul_not_mem_toStr i⟩
  rw [label_of_no_nul hnul, ← List.append_assoc]
  rfl

theorem serverName_injective : Function.Injective serverName := fun _ _ h ↦
  toStr_injective (List.append_cancel_left h)

/-- Two servers share a label only if a number of ten or more comes with the smaller name. -/
theorem shared_label {i j r r' : ℕ} (h : label (serverName i) r = label (serverName j) r')
    (hij : i < j) : 10 ≤ r ∧ 10 * i + 1 ≤ j := by
  rw [label_serverName, label_serverName] at h
  rcases List.append_eq_append_iff.mp (List.append_cancel_left h) with
    ⟨w, hj, hr⟩ | ⟨w, hi, hr'⟩
  · refine moved_digits hj hr ?_
    intro heq
    subst heq
    have he := toStr_injective (hj.trans (List.append_nil _))
    omega
  · by_cases hw : w = []
    · subst hw
      have he := toStr_injective (hi.trans (List.append_nil _))
      omega
    · have hge := (moved_digits hi hr' hw).2
      omega

/-- `10 i + 1` followed by `0` is `i` followed by `10`. -/
theorem label_collision {i : ℕ} (hi : 1 ≤ i) :
    label (serverName i) 10 = label (serverName (10 * i + 1)) 0 := by
  have happend := Nat.toDigits_append_toDigits (b := 10) (n := i) (d := 1) (by omega) hi (by omega)
  rw [label_serverName, label_serverName, toStr, toStr, toStr, toStr, ← happend, List.append_assoc]
  rfl

end Names

section Ring

variable {vNode : ℕ} {hash : Str → κ}

/-- A replica of `Server i` stands at the position. -/
def At (vNode : ℕ) (hash : Str → κ) (i : ℕ) (p : κ) : Prop :=
  ∃ r < vNode, p = hash (label (serverName i) r)

theorem mem_fullRing {n : ℕ} {p : κ} {v : Str} : (p, v) ∈ (fullRing vNode hash n).ring_ ↔
    ∃ i, (1 ≤ i ∧ i ≤ n) ∧ v = serverName i ∧ At vNode hash i p ∧
      ∀ j, i < j → j ≤ n → ¬At vNode hash j p := by
  induction n with
  | zero =>
    refine iff_of_false (OrderedMap.not_mem_empty _) ?_
    intro h
    obtain ⟨i, hi, -⟩ := h
    omega
  | succ n ih =>
    have hadd : fullRing vNode hash (n + 1) =
        run vNode hash ((List.range n).map (fun i ↦ .add (serverName (i + 1))) ++
          [.add (serverName (n + 1))]) := by
      simp [fullRing, List.range_succ]
    rw [hadd, mem_run_add]
    constructor
    · rintro (⟨hat, rfl⟩ | ⟨hfree, hmem⟩)
      · exact ⟨n + 1, by omega, rfl, hat, by omega⟩
      · obtain ⟨i, hi, hv, hat, hlast⟩ := ih.mp hmem
        refine ⟨i, by omega, hv, hat, fun j hij hj ↦ ?_⟩
        by_cases hjn : j = n + 1
        · exact hjn ▸ hfree
        · exact hlast j hij (by omega)
    · intro h
      obtain ⟨i, hi, rfl, hat, hlast⟩ := h
      by_cases hin : i = n + 1
      · exact .inl ⟨hin ▸ hat, by rw [hin]⟩
      · exact .inr ⟨hlast (n + 1) (by omega) le_rfl,
          ih.mpr ⟨i, by omega, rfl, hat, fun j hij hj ↦ hlast j hij (by omega)⟩⟩

theorem removed_ring (i n : ℕ) (p : κ) (v : Str) :
    (p, v) ∈ ((fullRing vNode hash n).removeServer (serverName i)).ring_ ↔
      ¬At vNode hash i p ∧ (p, v) ∈ (fullRing vNode hash n).ring_ := by
  have hrun : (fullRing vNode hash n).removeServer (serverName i) = run vNode hash
      ((List.range n).map (fun i ↦ .add (serverName (i + 1))) ++ [.remove (serverName i)]) := by
    rw [run_concat]
    rfl
  rw [hrun]
  exact mem_run_remove

omit [LinearOrder κ] in
/-- The first replica of a server has its position to itself, but for servers
whose names begin with that of another. -/
theorem not_at_first (hinj : Function.Injective hash) {i k : ℕ} (hne : k ≠ i) (hk : k ≤ 10 * i) :
    ¬At vNode hash i (hash (label (serverName k) 0)) := by
  intro h
  obtain ⟨r, -, he⟩ := h
  rcases lt_or_gt_of_ne hne with hlt | hlt
  · have hshared := shared_label (hinj he) hlt
    omega
  · have hshared := shared_label (hinj he).symm hlt
    omega

theorem first_mem (hinj : Function.Injective hash) (hV : 1 ≤ vNode) {n k : ℕ} (hk : 1 ≤ k)
    (hkn : k ≤ n) : (hash (label (serverName k) 0), serverName k) ∈ (fullRing vNode hash n).ring_ :=
  mem_fullRing.mpr ⟨k, ⟨hk, hkn⟩, rfl, ⟨0, by omega, rfl⟩,
    fun j hj _ ↦ not_at_first hinj (by omega) (by omega)⟩

theorem freed_positions (hinj : Function.Injective hash) {n i : ℕ} (hi : i ≤ n)
    (hcond : vNode ≤ 10 ∨ n ≤ 10 * i) {p : κ} {v : Str}
    (hmem : (p, v) ∈ (fullRing vNode hash n).ring_) (hat : At vNode hash i p) :
    v = serverName i := by
  obtain ⟨j, hj, rfl, ⟨r', -, hr'⟩, hlast⟩ := mem_fullRing.mp hmem
  rcases lt_trichotomy i j with hlt | rfl | hlt
  · obtain ⟨r, hr, he⟩ := hat
    have hshared := shared_label (hinj (he.symm.trans hr')) hlt
    omega
  · rfl
  · exact absurd hat (hlast i hlt hi)

theorem removeServer_shape (i n : ℕ) :
    (fullRing vNode hash n).removeServer (serverName i) = { fullRing vNode hash n with
      ring_ := (fullRing vNode hash n).ring_.eraseAll
        ((fullRing vNode hash n).positions (serverName i)) } :=
  removeServer_ring _ _

theorem ownersKept_of_condition (hinj : Function.Injective hash) {n i : ℕ} (hi : i ≤ n)
    (hcond : vNode ≤ 10 ∨ n ≤ 10 * i) :
    OwnersKept (fullRing vNode hash n) (serverName i) := by
  intro file server hget hne
  obtain ⟨p, hp⟩ := getServer_eq_ok.mp hget
  rw [removeServer_shape]
  refine getServer_eq_ok.mpr ⟨p, OrderedMap.atOrAfter_eraseAll hp fun hfreed ↦ hne ?_⟩
  exact freed_positions hinj hi hcond (OrderedMap.atOrAfter_nearest hp).1
    (mem_run_positions.mp hfreed)

theorem removed_ne_nil (hinj : Function.Injective hash) (hV : 1 ≤ vNode) {n i : ℕ} (hn : 2 ≤ n)
    (hi : 1 ≤ i) : ((fullRing vNode hash n).removeServer (serverName i)).ring_.entries ≠ [] := by
  intro hnil
  obtain ⟨k, hk, hkn, hne, hle⟩ : ∃ k, 1 ≤ k ∧ k ≤ n ∧ k ≠ i ∧ k ≤ 10 * i := by
    by_cases hi1 : i = 1
    · exact ⟨2, by omega⟩
    · exact ⟨1, by omega⟩
  have hmem := (removed_ring i n _ _).mpr
    ⟨not_at_first hinj hne hle, first_mem hinj hV hk hkn⟩
  rw [OrderedMap.mem_def, hnil] at hmem
  cases hmem

theorem countsExact_of_condition (hinj : Function.Injective hash) (hV : 1 ≤ vNode) {n i : ℕ}
    (hn : 2 ≤ n) (hi : 1 ≤ i) (hin : i ≤ n) (hcond : vNode ≤ 10 ∨ n ≤ 10 * i) (files : List Str) :
    CountsExact (fullRing vNode hash n) (serverName i) files := by
  have hne : (fullRing vNode hash n).ring_.entries ≠ [] := fun hnil ↦ by
    have hmem : (hash (label (serverName 1) 0), serverName 1) ∈ (fullRing vNode hash n).ring_ :=
      first_mem hinj hV le_rfl (by omega)
    rw [OrderedMap.mem_def, hnil] at hmem
    cases hmem
  choose owner hown using fun file : Str ↦ getServer_isOk hne file
  choose owner' hown' using fun file : Str ↦ getServer_isOk (removed_ne_nil hinj hV hn hi) file
  refine countsExact_of_kept hown hown' (fun file hf ↦ ?_) files
  have hkept := ownersKept_of_condition hinj hin hcond file _ (hown file) hf
  exact Except.ok.inj ((hown' file).symm.trans hkept)

end Ring

section Misplaced

/-- The first two strings are hashed to the beginning of the ring, next to each other. -/
def frontHash (first second : Str) (s : Str) : ℕ :=
  if s = first then 0 else if s = second then 1 else sampleHash s + 2

theorem frontHash_first (first second : Str) : frontHash first second first = 0 := if_pos rfl

theorem frontHash_second {first second : Str} (hne : second ≠ first) :
    frontHash first second second = 1 := by
  rw [frontHash, if_neg hne, if_pos rfl]

theorem frontHash_injective (first second : Str) :
    Function.Injective (frontHash first second) := by
  intro s t h
  unfold frontHash at h
  split_ifs at h
  all_goals first
    | omega
    | simp_all; done
    | exact sampleHash_injective (by omega)

theorem cStr_label (v : Str) (r : ℕ) : cStr (label v r) = label v r := by
  refine List.takeWhile_eq_self_iff.mpr fun c hc ↦ ?_
  exact List.mem_takeWhile_imp (p := fun c ↦ decide (c ≠ Char.ofNat 0)) hc

theorem distribution_one {h : HashRing Str κ} {file server : Str}
    (hget : h.getServer file = .ok server) : distribution h [file] =
      .ok ⟨PMap.insert (fun _ ↦ none) server 1, PMap.insert (fun _ ↦ none) server [file]⟩ := by
  simp only [distribution, List.foldlM_cons, List.foldlM_nil, countFile, hget]
  rfl

/-- A file hashed to a position that `Server i` shares with `Server (10 i + 1)`, and a
replica of `Server (10 i)` right behind it. -/
theorem misplaced {vNode n i : ℕ} (hi : 1 ≤ i) (hV : 10 < vNode) (hn : 10 * i < n) :
    ∃ hash : Str → ℕ, Function.Injective hash ∧
      ¬CountsExact (fullRing vNode hash n) (serverName i) [label (serverName i) 10] := by
  have hcollision := label_collision hi
  have hne : label (serverName (10 * i)) 0 ≠ label (serverName i) 10 := fun he ↦ by
    have hshared := shared_label (he.trans hcollision) (by omega)
    omega
  have hinj := frontHash_injective (label (serverName i) 10) (label (serverName (10 * i)) 0)
  refine ⟨frontHash (label (serverName i) 10) (label (serverName (10 * i)) 0), hinj, ?_⟩
  set file := label (serverName i) 10
  set hash := frontHash file (label (serverName (10 * i)) 0)
  have hfile : hash (cStr (stringify file)) = 0 := by
    rw [show stringify file = file from rfl, cStr_label]
    exact frontHash_first ..
  -- before the failure the file belongs to the server with the longer name
  have hbefore : (fullRing vNode hash n).getServer file = .ok (serverName (10 * i + 1)) := by
    have hmem : (hash (label (serverName (10 * i + 1)) 0), serverName (10 * i + 1)) ∈
        (fullRing vNode hash n).ring_ := first_mem hinj (by omega) (by omega) (by omega)
    rw [← hcollision, show hash file = 0 from frontHash_first ..] at hmem
    refine getServer_eq_ok.mpr ⟨0, ?_⟩
    rw [show (fullRing vNode hash n).hash_ = hash from (run_constant _).2, hfile]
    exact OrderedMap.atOrAfter_self hmem
  -- its position is freed, and the search goes on to the next one
  have hafter : ((fullRing vNode hash n).removeServer (serverName i)).getServer file =
      .ok (serverName (10 * i)) := by
    have hsecond : hash (label (serverName (10 * i)) 0) = 1 := frontHash_second hne
    have hkept : ¬At vNode hash i (hash (label (serverName (10 * i)) 0)) :=
      not_at_first hinj (by omega) le_rfl
    have hmem := (removed_ring i n _ _).mpr
      ⟨hkept, first_mem hinj (by omega) (by omega) hn.le⟩
    rw [hsecond] at hmem
    refine getServer_eq_ok.mpr ⟨1, ?_⟩
    rw [show ((fullRing vNode hash n).removeServer (serverName i)).hash_ = hash by
      rw [removeServer_shape]; exact (run_constant _).2, hfile]
    refine OrderedMap.atOrAfter_eq_some.mpr ⟨hmem, ⟨_, hmem⟩, ?_⟩
    rintro q ⟨w, hq⟩
    refine Turn.turn_le_of_le (by omega) fun _ ↦ ?_
    have hfree := ((removed_ring i n _ _).mp hq).1
    have hq0 : q ≠ 0 := fun h0 ↦ hfree ⟨10, hV, h0.trans (frontHash_first ..).symm⟩
    omega
  intro h
  obtain ⟨d, counts, d', hd, hc, hd', hcounts⟩ := h
  have hJ : serverName (10 * i + 1) ≠ serverName i := fun he ↦ by
    have := serverName_injective he
    omega
  have hK : serverName (10 * i + 1) ≠ serverName (10 * i) := fun he ↦ by
    have := serverName_injective he
    omega
  rw [distribution_one hbefore] at hd
  rw [distribution_one hafter] at hd'
  cases hd
  cases hd'
  -- the failed server held nothing, so nothing is looked up again
  have hdata : PMap.index (PMap.insert (fun _ ↦ none) (serverName (10 * i + 1)) [file])
      (serverName i) = [] := by
    simp only [PMap.index, PMap.insert_apply, hJ.symm, ↓reduceIte]
    rfl
  rw [redistribution, hdata] at hc
  cases hc
  have hcount := hcounts (serverName (10 * i + 1))
  simp [PMap.index, hJ, hK] at hcount

end Misplaced

/-- The counts that `main` builds after the failure of `Server i` are those of the
new ring, for every hash and every list of files, if and only if there are at most
ten replicas or at most `10 i` servers. -/
theorem redistribution_exact_iff (n vNode i : ℕ) (hn : 2 ≤ n) (hV : 1 ≤ vNode) (hi : 1 ≤ i)
    (hin : i ≤ n) :
    (∀ (κ : Type) [LinearOrder κ] (hash : Str → κ), Function.Injective hash →
      (∀ files, CountsExact (fullRing vNode hash n) (serverName i) files) ∧
        OwnersKept (fullRing vNode hash n) (serverName i)) ↔ vNode ≤ 10 ∨ n ≤ 10 * i := by
  constructor
  · intro h
    by_contra! hcond
    obtain ⟨hash, hinj, hwrong⟩ := misplaced hi hcond.1 hcond.2
    exact hwrong ((h ℕ hash hinj).1 _)
  · intro hcond κ _ hash hinj
    exact ⟨countsExact_of_condition hinj hV hn hi hin hcond,
      ownersKept_of_condition hinj hin hcond⟩

/-- The last of eleven servers fails. -/
theorem redistribution_exact_last :
    (∀ files, CountsExact (fullRing 500 sampleHash 11) (serverName 11) files) ∧
      OwnersKept (fullRing 500 sampleHash 11) (serverName 11) :=
  (redistribution_exact_iff 11 500 11 (by omega) (by omega) (by omega) (by omega)).mpr (by omega)
    ℕ sampleHash sampleHash_injective

/-- `Server1` fails among eleven servers with fifty replicas each: the file
`Server110` moves from `Server11` to another server. -/
theorem redistribution_inexact :
    ¬∀ (κ : Type) [LinearOrder κ] (hash : Str → κ), Function.Injective hash →
      (∀ files, CountsExact (fullRing 50 hash 11) (serverName 1) files) ∧
        OwnersKept (fullRing 50 hash 11) (serverName 1) := by
  intro h
  obtain ⟨hash, hinj, hwrong⟩ := misplaced (show 1 ≤ 1 from le_rfl) (show 10 < 50 by omega)
    (show 10 * 1 < 11 by omega)
  exact hwrong ((h ℕ hash hinj).1 _)

end FTCache.Redistribution
