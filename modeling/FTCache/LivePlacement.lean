import FTCache.Placement
import Mathlib.Data.Nat.Digits.Lemmas

namespace FTCache.LivePlacement

open HashRing Placement

variable {Server Data κ : Type*} [LinearOrder κ] [Stringify Server] [Stringify Data]
variable {replicas : ℕ} {hash : Str → κ} {ops : List (Op Server)}

theorem toStr_injective : Function.Injective toStr := by
  intro m n h
  have hval := congrArg (fun ds ↦ Nat.ofDigitChars 10 ds 0) h
  simpa [toStr] using hval

theorem digit_of_mem_toStr {c : Char} {n : ℕ} (h : c ∈ toStr n) : c.isDigit :=
  Nat.isDigit_of_mem_toDigits (by omega) (by omega) h

theorem cStr_eq_self {s : Str} (h : Char.ofNat 0 ∉ s) : cStr s = s := by
  refine List.takeWhile_eq_self_iff.mpr fun c hc ↦ ?_
  have hne : c ≠ Char.ofNat 0 := fun he ↦ h (he ▸ hc)
  simpa using hne

theorem nul_not_mem_toStr (n : ℕ) : Char.ofNat 0 ∉ toStr n := fun h ↦
  absurd (digit_of_mem_toStr h) (by decide)

theorem label_of_no_nul {v : Server} (h : Char.ofNat 0 ∉ stringify v) (r : ℕ) :
    label v r = stringify v ++ toStr r :=
  cStr_eq_self (by simp [h, nul_not_mem_toStr])

/-- Behind a NUL the replica number is cut off. -/
theorem label_of_nul {v : Server} (h : Char.ofNat 0 ∈ stringify v) (r : ℕ) :
    label v r = cStr (stringify v) := by
  unfold label cStr
  rw [List.takeWhile_append]
  rw [if_neg]
  intro hlen
  have hall := List.takeWhile_eq_self_iff.mp
    ((List.takeWhile_prefix _).eq_of_length hlen) _ h
  simp at hall

theorem label_injOn_iff (v : Server) (n : ℕ) :
    Set.InjOn (label v) (Finset.range n) ↔ Char.ofNat 0 ∉ stringify v ∨ n ≤ 1 := by
  constructor
  · intro hinj
    by_contra! h
    have h01 := hinj (Finset.mem_coe.mpr (Finset.mem_range.mpr (show 0 < n by omega)))
      (Finset.mem_coe.mpr (Finset.mem_range.mpr h.2))
      (by rw [label_of_nul h.1, label_of_nul h.1])
    omega
  · rintro (h | h) r hr r' hr' he
    · rw [label_of_no_nul h, label_of_no_nul h] at he
      exact toStr_injective (List.append_cancel_left he)
    · simp only [Finset.coe_range, Set.mem_Iio] at hr hr'
      omega

/-- The ring holds the replicas of the live servers and nothing else, and each
of them owns `replicas_` positions. -/
structure Exact [DecidableEq Server] (replicas : ℕ) (hash : Str → κ) (ops : List (Op Server)) :
    Prop where
  entries : ∀ p v, (p, v) ∈ (run replicas hash ops).ring_ ↔
    Live ops v ∧ ∃ r < replicas, p = hash (stringify v ++ toStr r)
  owned : ∀ v, Live ops v →
    ((run replicas hash ops).ring_.entries.filter (·.2 = v)).length = replicas

/-- The same of the labels, which a NUL in a name cuts off. -/
structure Labelled [DecidableEq Server] (replicas : ℕ) (hash : Str → κ) (ops : List (Op Server)) :
    Prop where
  entries : ∀ p v, (p, v) ∈ (run replicas hash ops).ring_ ↔
    Live ops v ∧ ∃ r < replicas, p = hash (cStr (stringify v ++ toStr r))
  owned : ∀ v, Live ops v →
    ((run replicas hash ops).ring_.entries.filter (·.2 = v)).length = replicas

/-- No live server shares a label with the server of the call, and a server that
is added can tell its replicas apart. -/
def Clear (replicas : ℕ) (ops : List (Op Server)) (op : Op Server) : Prop :=
  (∀ v, Live ops v → v ≠ op.server →
    ∀ r < replicas, ∀ r' < replicas, label v r ≠ label op.server r') ∧
  ∀ s, op = .add s → Char.ofNat 0 ∉ stringify s ∨ replicas ≤ 1

/-- Every call of the sequence is clear where it is made. -/
def Undisturbed (replicas : ℕ) (ops : List (Op Server)) : Prop :=
  ∀ pre op, pre ++ [op] <+: ops → Clear replicas pre op

/-- No live server shares a label with the server of the call, and the name of a server that is
added has no NUL. -/
def Apart (replicas : ℕ) (ops : List (Op Server)) (op : Op Server) : Prop :=
  (∀ v, Live ops v → v ≠ op.server →
    ∀ r < replicas, ∀ r' < replicas, label v r ≠ label op.server r') ∧
  ∀ s, op = .add s → Char.ofNat 0 ∉ stringify s ∨ replicas = 0

def AllApart (replicas : ℕ) (ops : List (Op Server)) : Prop :=
  ∀ pre op, pre ++ [op] <+: ops → Apart replicas pre op

variable [DecidableEq Server]

theorem owned_length (h : ∀ p v, (p, v) ∈ (run replicas hash ops).ring_ ↔
      Live ops v ∧ ∃ r < replicas, p = hash (label v r)) {v : Server} (hv : Live ops v) :
    ((run replicas hash ops).ring_.entries.filter (·.2 = v)).length =
      ((Finset.range replicas).image fun r ↦ hash (label v r)).card := by
  set m := (run replicas hash ops).ring_
  have hnodup : ((m.entries.filter (·.2 = v)).map Prod.fst).Nodup := by
    refine List.pairwise_map.mpr ((m.sorted.filter _).imp ?_)
    exact fun hab ↦ hab.ne
  rw [← List.length_map (f := Prod.fst), ← List.toFinset_card_of_nodup hnodup]
  congr 1
  ext p
  have hp : p ∈ (m.entries.filter (·.2 = v)).map Prod.fst ↔ (p, v) ∈ m := by
    simp [OrderedMap.mem_def]
  rw [List.mem_toFinset, hp, h]
  simp [hv, eq_comm]

theorem owned_iff (hinj : Function.Injective hash)
    (h : ∀ p v, (p, v) ∈ (run replicas hash ops).ring_ ↔
      Live ops v ∧ ∃ r < replicas, p = hash (label v r)) {v : Server} (hv : Live ops v) :
    ((run replicas hash ops).ring_.entries.filter (·.2 = v)).length = replicas ↔
      Char.ofNat 0 ∉ stringify v ∨ replicas ≤ 1 := by
  rw [owned_length h hv, ← label_injOn_iff]
  have hcard := Finset.card_image_iff (s := Finset.range replicas) (f := fun r ↦ hash (label v r))
  rw [Finset.card_range] at hcard
  rw [hcard]
  exact ⟨fun hi r hr r' hr' he ↦ hi hr hr' (congrArg hash he),
    fun hi r hr r' hr' he ↦ hi hr hr' (hinj he)⟩

theorem Labelled.owned_iff (hinj : Function.Injective hash) (h : Labelled replicas hash ops)
    {v : Server} (hv : Live ops v) :
    ((run replicas hash ops).ring_.entries.filter (·.2 = v)).length = replicas ↔
      Char.ofNat 0 ∉ stringify v ∨ replicas ≤ 1 :=
  LivePlacement.owned_iff hinj h.entries hv

theorem labelled_nil (replicas : ℕ) (hash : Str → κ) :
    Labelled replicas hash ([] : List (Op Server)) := by
  constructor
  · intro p v
    exact iff_of_false (OrderedMap.not_mem_empty _) fun h ↦ not_live_nil v h.1
  · intro v hv
    exact absurd hv (not_live_nil v)

theorem Labelled.concat (hinj : Function.Injective hash) (h : Labelled replicas hash ops)
    {op : Op Server} (hclear : Clear replicas ops op) : Labelled replicas hash (ops ++ [op]) := by
  have hkept {v : Server} (hv : Live ops v) (hne : v ≠ op.server) {r : ℕ} (hr : r < replicas) :
      (hash (label v r), v) ∈ (run replicas hash ops).ring_ ∧
        ¬∃ r' < replicas, hash (label v r) = hash (label op.server r') := by
    refine ⟨(h.entries _ _).mpr ⟨hv, r, hr, rfl⟩, ?_⟩
    intro hx
    obtain ⟨r', hr', he⟩ := hx
    exact hclear.1 v hv hne r hr r' hr' (hinj he)
  have hentries : ∀ p v, (p, v) ∈ (run replicas hash (ops ++ [op])).ring_ ↔
      Live (ops ++ [op]) v ∧ ∃ r < replicas, p = hash (label v r) := by
    intro p v
    refine ⟨fun hp ↦ entries_live replicas hash _ hp, ?_⟩
    intro hx
    obtain ⟨hlive, r, hr, rfl⟩ := hx
    rw [live_concat] at hlive
    cases op with
    | add s =>
      rw [mem_run_add]
      by_cases hv : v = s
      · subst v
        exact .inl ⟨⟨r, hr, rfl⟩, rfl⟩
      · have hold : Live ops v := (hlive.resolve_left (by simpa using Ne.symm hv)).2
        obtain ⟨hmem, hfree⟩ := hkept hold hv hr
        exact .inr ⟨hfree, hmem⟩
    | remove s =>
      obtain ⟨hv, hold⟩ := hlive.resolve_left (by simp)
      obtain ⟨hmem, hfree⟩ := hkept hold (by simpa [Op.server] using Ne.symm hv) hr
      exact mem_run_remove.mpr ⟨hfree, hmem⟩
  refine ⟨hentries, fun v hv ↦ (LivePlacement.owned_iff hinj hentries hv).mpr ?_⟩
  rcases live_concat.mp hv with hop | ⟨-, hold⟩
  · exact hclear.2 v hop
  · exact (h.owned_iff hinj hold).mp (h.owned v hold)

theorem Labelled.clear (hinj : Function.Injective hash) {op : Op Server}
    (h : Labelled replicas hash (ops ++ [op])) : Clear replicas ops op := by
  constructor
  · intro v hv hne r hr r' hr' he
    have hop : op ≠ .remove v := by
      intro heq
      subst heq
      exact hne rfl
    have hmem := (h.entries (hash (label v r)) v).mpr
      ⟨live_concat.mpr (.inr ⟨hop, hv⟩), r, hr, rfl⟩
    -- the position now is the other server's, or nobody's
    cases op with
    | add s =>
      rcases mem_run_add.mp hmem with ⟨-, rfl⟩ | ⟨hfree, -⟩
      · exact hne rfl
      · exact hfree ⟨r', hr', congrArg hash he⟩
    | remove s => exact (mem_run_remove.mp hmem).1 ⟨r', hr', congrArg hash he⟩
  · rintro s rfl
    have hs : Live (ops ++ [.add s]) s := live_concat.mpr (.inl rfl)
    exact (h.owned_iff hinj hs).mp (h.owned s hs)

omit [Stringify Server] [DecidableEq Server] in
/-- What holds of every call of a sequence, where it is made. -/
theorem calls_concat {P : List (Op Server) → Op Server → Prop} {op : Op Server} :
    (∀ pre op', pre ++ [op'] <+: ops ++ [op] → P pre op') ↔
      (∀ pre op', pre ++ [op'] <+: ops → P pre op') ∧ P ops op := by
  constructor
  · intro h
    exact ⟨fun pre op' hpre ↦ h pre op' (hpre.trans (List.prefix_append ..)),
      h ops op List.prefix_rfl⟩
  · rintro ⟨hops, hop⟩ pre op' hpre
    rcases List.prefix_concat_iff.mp hpre with he | hpre
    · obtain ⟨rfl, he⟩ := List.append_inj' he rfl
      obtain rfl : op' = op := by simpa using he
      exact hop
    · exact hops pre op' hpre

omit [DecidableEq Server] in
theorem undisturbed_concat {op : Op Server} :
    Undisturbed replicas (ops ++ [op]) ↔ Undisturbed replicas ops ∧ Clear replicas ops op :=
  calls_concat

omit [DecidableEq Server] in
theorem undisturbed_nil (replicas : ℕ) : Undisturbed replicas ([] : List (Op Server)) := by
  intro pre op hpre
  simp at hpre

theorem labelled_of_undisturbed (hinj : Function.Injective hash) (h : Undisturbed replicas ops) :
    Labelled replicas hash ops := by
  induction ops using List.reverseRecOn with
  | nil => exact labelled_nil replicas hash
  | append_singleton ops op ih =>
    obtain ⟨hops, hop⟩ := undisturbed_concat.mp h
    exact (ih hops).concat hinj hop

theorem run_eq_of_live {ops' : List (Op Server)} (h : Labelled replicas hash ops)
    (h' : Labelled replicas hash ops') (hlive : ∀ v, Live ops v ↔ Live ops' v) :
    run replicas hash ops = run replicas hash ops' := by
  have hring : (run replicas hash ops).ring_ = (run replicas hash ops').ring_ :=
    OrderedMap.ext_mem fun p v ↦ by rw [h.entries, h'.entries, hlive]
  obtain ⟨hr, hh⟩ : (run replicas hash ops).replicas_ = replicas ∧
      (run replicas hash ops).hash_ = hash := run_constant ops
  obtain ⟨hr', hh'⟩ : (run replicas hash ops').replicas_ = replicas ∧
      (run replicas hash ops').hash_ = hash := run_constant ops'
  exact HashRing.ext hring (hr.trans hr'.symm) (hh.trans hh'.symm)

theorem restored (hinj : Function.Injective hash) (h : Undisturbed replicas ops) {s : Server}
    (hs : Live ops s) : run replicas hash (ops ++ [.remove s, .add s]) = run replicas hash ops := by
  have hlabelled := labelled_of_undisturbed hinj h
  -- no other live server shares a label with a live one
  have hapart : ∀ v, Live ops v → v ≠ s →
      ∀ r < replicas, ∀ r' < replicas, label v r ≠ label s r' := by
    intro v hv hne r hr r' hr' he
    have hv' := (hlabelled.entries (hash (label v r)) v).mpr ⟨hv, r, hr, rfl⟩
    have hs' := (hlabelled.entries (hash (label v r)) s).mpr ⟨hs, r', hr', congrArg hash he⟩
    exact hne (OrderedMap.value_unique hv' hs')
  have hremove : Clear replicas ops (.remove s) := ⟨hapart, by simp⟩
  have hadd : Clear replicas (ops ++ [.remove s]) (.add s) := by
    refine ⟨fun v hv hne ↦ hapart v (live_concat.mp hv |>.resolve_left (by simp)).2 hne, ?_⟩
    rintro s' he
    obtain rfl : s = s' := by simpa using he
    exact (hlabelled.owned_iff hinj hs).mp (hlabelled.owned s hs)
  have hboth : Undisturbed replicas (ops ++ [.remove s] ++ [.add s]) :=
    undisturbed_concat.mpr ⟨undisturbed_concat.mpr ⟨h, hremove⟩, hadd⟩
  rw [show ops ++ [.remove s, .add s] = ops ++ [.remove s] ++ [.add s] by simp]
  refine run_eq_of_live (labelled_of_undisturbed hinj hboth) hlabelled fun v ↦ ?_
  rw [live_concat, live_concat]
  by_cases hv : s = v
  · subst hv
    simpa using hs
  · simp [hv]

theorem nul_not_mem_cStr (s : Str) : Char.ofNat 0 ∉ cStr s := by
  intro h
  simpa using List.mem_takeWhile_imp h

theorem Exact.no_nul (hinj : Function.Injective hash) (h : Exact replicas hash ops) {v : Server}
    (hv : Live ops v) : Char.ofNat 0 ∉ stringify v ∨ replicas = 0 := by
  rcases Nat.eq_zero_or_pos replicas with hr | hr
  · exact .inr hr
  · left
    have hmem := (h.entries (hash (stringify v ++ toStr 0)) v).mpr ⟨hv, 0, hr, rfl⟩
    obtain ⟨-, r, -, he⟩ := entries_live replicas hash ops hmem
    intro hnul
    have hcut := nul_not_mem_cStr (stringify v ++ toStr r)
    rw [show cStr (stringify v ++ toStr r) = stringify v ++ toStr 0 from (hinj he).symm] at hcut
    exact hcut (List.mem_append_left _ hnul)

/-- Where no live server has a NUL in its name, the labels are the names with the numbers. -/
theorem exact_iff (hinj : Function.Injective hash) : Exact replicas hash ops ↔
    Labelled replicas hash ops ∧ ∀ v, Live ops v → Char.ofNat 0 ∉ stringify v ∨ replicas = 0 := by
  have hsame {v : Server} (hv : Char.ofNat 0 ∉ stringify v ∨ replicas = 0) (p : κ) :
      (∃ r < replicas, p = hash (label v r)) ↔
        ∃ r < replicas, p = hash (stringify v ++ toStr r) := by
    rcases hv with hv | hr
    · simp only [label_of_no_nul hv]
    · simp [hr]
  constructor
  · intro h
    have hnul (v : Server) (hv : Live ops v) := h.no_nul hinj hv
    refine ⟨⟨fun p v ↦ ?_, h.owned⟩, hnul⟩
    rw [h.entries]
    exact and_congr_right fun hv ↦ (hsame (hnul v hv) p).symm
  · rintro ⟨h, hnul⟩
    refine ⟨fun p v ↦ ?_, h.owned⟩
    rw [h.entries]
    exact and_congr_right fun hv ↦ hsame (hnul v hv) p

omit [DecidableEq Server] in
theorem AllApart.undisturbed (h : AllApart replicas ops) : Undisturbed replicas ops := by
  intro pre op hpre
  obtain ⟨hapart, hnul⟩ := h pre op hpre
  exact ⟨hapart, fun s hs ↦ (hnul s hs).imp_right fun hr ↦ by omega⟩

theorem exact_of_allApart (hinj : Function.Injective hash) (h : AllApart replicas ops) :
    Exact replicas hash ops := by
  refine (exact_iff hinj).mpr ⟨labelled_of_undisturbed hinj h.undisturbed, fun v hv ↦ ?_⟩
  obtain ⟨pre, post, rfl, -⟩ := hv
  exact (h pre (.add v) ⟨post, by simp⟩).2 v rfl

theorem Exact.apart (hinj : Function.Injective hash) {op : Op Server}
    (h : Exact replicas hash (ops ++ [op])) : Apart replicas ops op := by
  refine ⟨(((exact_iff hinj).mp h).1.clear hinj).1, ?_⟩
  rintro s rfl
  exact h.no_nul hinj (live_concat.mpr (.inl rfl))

/-- A sequence of calls keeps the ring that of the live servers if and only if each call keeps
the labels apart; then the ring is a function of the live servers. -/
theorem ring_of_live_servers (hash : Str → κ) (hinj : Function.Injective hash) (replicas : ℕ)
    (ops : List (Op Server)) :
    ((∀ pre, pre <+: ops → Exact replicas hash pre) ↔ AllApart replicas ops) ∧
    (AllApart replicas ops →
      (∀ ops', AllApart replicas ops' → (∀ v, Live ops v ↔ Live ops' v) →
        run replicas hash ops = run replicas hash ops' ∧
          ∀ key : Data, (run replicas hash ops).getServer key =
            (run replicas hash ops').getServer key) ∧
      ∀ s, Live ops s →
        run replicas hash (ops ++ [.remove s, .add s]) = run replicas hash ops) := by
  refine ⟨⟨fun h pre op hpre ↦ (h _ hpre).apart hinj,
    fun h pre hpre ↦ exact_of_allApart hinj fun pre' op hpre' ↦ h pre' op (hpre'.trans hpre)⟩,
    fun h ↦ ⟨?_, ?_⟩⟩
  · intro ops' h' hlive
    have he := run_eq_of_live (labelled_of_undisturbed hinj h.undisturbed)
      (labelled_of_undisturbed hinj h'.undisturbed) hlive
    exact ⟨he, fun key ↦ by rw [he]⟩
  · intro s hs
    exact restored hinj h.undisturbed hs

/-- A hash that tells all strings apart: a string as a number in base `2 ^ 33`. -/
def sampleHash (s : Str) : ℕ := Nat.ofDigits (2 ^ 33) (s.map fun c ↦ c.toNat + 1)

theorem sampleHash_injective : Function.Injective sampleHash := by
  have hdigits (s : Str) : Nat.digits (2 ^ 33) (sampleHash s) = s.map fun c ↦ c.toNat + 1 := by
    refine Nat.digits_ofDigits _ (by norm_num) _ ?_ ?_
    · intro d hd
      obtain ⟨c, -, rfl⟩ := List.mem_map.mp hd
      have hc : c.toNat < 2 ^ 32 := c.val.toNat_lt
      omega
    · intro hne
      obtain ⟨c, -, hc⟩ := List.mem_map.mp (List.getLast_mem hne)
      omega
  intro s t h
  have hmap := (hdigits s).symm.trans ((congrArg (Nat.digits (2 ^ 33)) h).trans (hdigits t))
  refine List.map_injective_iff.mpr ?_ hmap
  intro c d hcd
  exact Char.toNat_inj.mp (Nat.succ_injective hcd)

/-- Two servers of which neither name is the beginning of the other. -/
theorem ring_of_live_servers_restored :
    run 2 sampleHash ([.add ['a'], .add ['b']] ++ [.remove ['a'], .add ['a']]) =
      run 2 sampleHash [.add ['a'], .add ['b']] := by
  have hfirst : Apart 2 [] (.add ['a']) := by
    refine ⟨fun v hv ↦ absurd hv (not_live_nil v), ?_⟩
    rintro s ⟨⟩
    exact .inl (by decide)
  have hsecond : Apart 2 [.add ['a']] (.add ['b']) := by
    refine ⟨fun v hv hne ↦ ?_, ?_⟩
    · obtain rfl : ['a'] = v := by
        simpa [not_live_nil] using live_concat.mp (show Live ([] ++ [Op.add ['a']]) v from hv)
      decide
    · rintro s ⟨⟩
      exact .inl (by decide)
  have hops : AllApart 2 [.add ['a'], .add ['b']] :=
    calls_concat.mpr ⟨calls_concat.mpr ⟨fun pre op hpre ↦ by simp at hpre, hfirst⟩, hsecond⟩
  have hlive : Live [.add ['a'], .add ['b']] ['a'] := ⟨[], [.add ['b']], rfl, by simp⟩
  have hall := @ring_of_live_servers Str Str ℕ _ _ _ _ sampleHash sampleHash_injective 2
    [.add ['a'], .add ['b']]
  exact (hall.2 hops).2 _ hlive

/-- The label `a10` is written both as `a` and `10` and as `a1` and `0`. -/
theorem ring_not_of_live_servers :
    ¬∀ (hash : Str → ℕ), Function.Injective hash → ∀ (replicas : ℕ) (ops : List (Op Str)),
      Labelled replicas hash ops := by
  intro h
  have hexact := h sampleHash sampleHash_injective 11 [.add ['a'], .add ['a', '1']]
  have ha := (hexact.entries (sampleHash ['a', '1', '0']) ['a']).mpr
    ⟨⟨[], [.add ['a', '1']], rfl, by decide⟩, 10, by omega, by decide +kernel⟩
  have hb := (hexact.entries (sampleHash ['a', '1', '0']) ['a', '1']).mpr
    ⟨⟨[.add ['a']], [], rfl, by decide⟩, 0, by omega, by decide +kernel⟩
  exact absurd (OrderedMap.value_unique ha hb) (by decide)

end FTCache.LivePlacement
