import FTCache.LivePlacement
import Mathlib.Data.Finset.Max

/-! The ring as a choice: each key ranks all servers, and goes to the live one it ranks first. -/

namespace FTCache.RingPreference

open HashRing Placement LivePlacement OrderedMap Turn

variable {Server Data κ : Type*} [LinearOrder κ] [Stringify Server] [Stringify Data]
variable {replicas : ℕ} {hash : Str → κ} {ops : List (Op Server)}

/-- How far behind the key a replica stands on the ring. -/
def distance (hash : Str → κ) (key : Data) (v : Server) (r : ℕ) : Bool ×ₗ κ :=
  turn (hash (cStr (stringify key))) (hash (label v r))

/-- A replica of `v` stands before all replicas of `w`. Which servers are live has no say. -/
def Prefers (replicas : ℕ) (hash : Str → κ) (key : Data) (v w : Server) : Prop :=
  ∃ r < replicas, ∀ r' < replicas, distance hash key v r ≤ distance hash key w r'

variable {key : Data} {u v w : Server}

theorem Prefers.trans (h : Prefers replicas hash key u v) (h' : Prefers replicas hash key v w) :
    Prefers replicas hash key u w := by
  obtain ⟨r, hr, hu⟩ := h
  obtain ⟨r', hr', hv⟩ := h'
  exact ⟨r, hr, fun n hn ↦ (hu r' hr').trans (hv n hn)⟩

theorem first_replica (hr : 0 < replicas) (hash : Str → κ) (key : Data) (v : Server) :
    ∃ r < replicas, ∀ r' < replicas, distance hash key v r ≤ distance hash key v r' := by
  obtain ⟨r, hmem, hmin⟩ := Finset.exists_min_image (Finset.range replicas) (distance hash key v)
    ⟨0, Finset.mem_range.mpr hr⟩
  exact ⟨r, Finset.mem_range.mp hmem, fun r' hr' ↦ hmin r' (Finset.mem_range.mpr hr')⟩

theorem prefers_total (hr : 0 < replicas) (hash : Str → κ) (key : Data) (v w : Server) :
    Prefers replicas hash key v w ∨ Prefers replicas hash key w v := by
  obtain ⟨r, hrlt, hv⟩ := first_replica hr hash key v
  obtain ⟨n, hnlt, hw⟩ := first_replica hr hash key w
  rcases le_total (distance hash key v r) (distance hash key w n) with hle | hle
  · exact .inl ⟨r, hrlt, fun m hm ↦ hle.trans (hw m hm)⟩
  · exact .inr ⟨n, hnlt, fun m hm ↦ hle.trans (hv m hm)⟩

variable [DecidableEq Server]

theorem mem_keys_of_live (hlabelled : Labelled replicas hash ops) (hv : Live ops v) {r : ℕ}
    (hr : r < replicas) : hash (label v r) ∈ (run replicas hash ops).ring_.keys :=
  ⟨v, (hlabelled.entries _ _).mpr ⟨hv, r, hr, rfl⟩⟩

theorem prefers_of_getServer (hlabelled : Labelled replicas hash ops)
    (hg : (run replicas hash ops).getServer key = .ok v) :
    Live ops v ∧ ∀ w, Live ops w → Prefers replicas hash key v w := by
  obtain ⟨p, hp⟩ := getServer_eq_ok.mp hg
  obtain ⟨hmem, hnear⟩ := atOrAfter_nearest hp
  obtain ⟨hlive, r, hr, rfl⟩ := (hlabelled.entries _ _).mp hmem
  refine ⟨hlive, fun w hw ↦ ⟨r, hr, fun r' hr' ↦ ?_⟩⟩
  have hle := hnear.2 _ (mem_keys_of_live hlabelled hw hr')
  rwa [(run_constant ops).2] at hle

theorem getServer_of_prefers (hlabelled : Labelled replicas hash ops) (hlive : Live ops v)
    (hpref : ∀ w, Live ops w → Prefers replicas hash key v w) :
    (run replicas hash ops).getServer key = .ok v := by
  have hfirst (w : Server) (hw : Live ops w) : ∃ r < replicas, ∀ r' < replicas,
      distance hash key v r ≤ distance hash key w r' := hpref w hw
  obtain ⟨r, hr, -⟩ := hfirst v hlive
  have hne : (run replicas hash ops).ring_.entries ≠ [] := by
    obtain ⟨w, hw⟩ := mem_keys_of_live hlabelled hlive hr
    exact List.ne_nil_of_mem hw
  obtain ⟨u, hu⟩ := getServer_isOk hne key
  obtain ⟨p, hp⟩ := getServer_eq_ok.mp hu
  obtain ⟨hmem, hnear⟩ := atOrAfter_nearest hp
  obtain ⟨hulive, n, hn, rfl⟩ := (hlabelled.entries _ _).mp hmem
  obtain ⟨m, hm, hle⟩ := hfirst u hulive
  -- the replica met first is also the first one of `v`
  have hnear' : Nearest (hash (cStr (stringify key))) (run replicas hash ops).ring_.keys
      (hash (label v m)) := by
    refine ⟨mem_keys_of_live hlabelled hlive hm, fun q hq ↦ (hle n hn).trans ?_⟩
    have hmin := hnear.2 q hq
    rwa [(run_constant ops).2] at hmin
  rw [(run_constant ops).2] at hnear
  have hsame := hnear.unique hnear'
  have hv := (hlabelled.entries (hash (label v m)) v).mpr ⟨hlive, m, hm, rfl⟩
  have huv : u = v := value_unique (hsame ▸ hmem) hv
  rw [hu, huv]

theorem getServer_error_iff (hr : 0 < replicas) (hlabelled : Labelled replicas hash ops) :
    (∃ e, (run replicas hash ops).getServer key = .error e) ↔ ∀ v, ¬Live ops v := by
  constructor
  · rintro ⟨e, he⟩ v hv
    obtain ⟨w, hw⟩ := mem_keys_of_live hlabelled hv hr
    obtain ⟨u, hu⟩ := getServer_isOk (List.ne_nil_of_mem hw) key
    rw [hu] at he
    cases he
  · intro hnone
    cases hg : (run replicas hash ops).getServer key with
    | error e => exact ⟨e, rfl⟩
    | ok v => exact absurd (prefers_of_getServer hlabelled hg).1 (hnone v)

/-- Each key has one ranking of all servers. Whatever calls were made, it goes to the live
server it ranks first, and the ring throws exactly when no server is live. -/
theorem owner_preferred (hash : Str → κ) (hinj : Function.Injective hash) (replicas : ℕ)
    (hr : 0 < replicas) (key : Data) :
    (∀ u v w : Server, Prefers replicas hash key u v → Prefers replicas hash key v w →
      Prefers replicas hash key u w) ∧
    (∀ v w : Server, Prefers replicas hash key v w ∨ Prefers replicas hash key w v) ∧
    ∀ ops : List (Op Server), Undisturbed replicas ops →
      (∀ v, (run replicas hash ops).getServer key = .ok v ↔
        Live ops v ∧ ∀ w, Live ops w → Prefers replicas hash key v w) ∧
      ((∃ e, (run replicas hash ops).getServer key = .error e) ↔ ∀ v, ¬Live ops v) := by
  refine ⟨fun u v w ↦ .trans, prefers_total hr hash key, fun ops hops ↦ ?_⟩
  have hlabelled := labelled_of_undisturbed hinj hops
  refine ⟨fun v ↦ ⟨prefers_of_getServer hlabelled, ?_⟩, getServer_error_iff hr hlabelled⟩
  intro hx
  obtain ⟨hlive, hpref⟩ := hx
  exact getServer_of_prefers hlabelled hlive hpref

theorem undisturbed_first : Undisturbed 2 [Op.add (['a'] : Str)] := by
  refine undisturbed_concat.mpr ⟨undisturbed_nil 2, fun v hv ↦ absurd hv (not_live_nil v), ?_⟩
  rintro s ⟨⟩
  exact .inl (by decide)

theorem undisturbed_both : Undisturbed 2 [Op.add (['a'] : Str), .add ['b']] := by
  refine undisturbed_concat.mpr ⟨undisturbed_first, fun v hv hne ↦ ?_, ?_⟩
  · obtain rfl : ['a'] = v := by
      simpa [not_live_nil] using live_concat.mp (show Live ([] ++ [Op.add ['a']]) v from hv)
    decide
  · rintro s ⟨⟩
    exact .inl (by decide)

theorem owner_preferred_two :
    ((run 2 sampleHash [Op.add (['a'] : Str), .add ['b']]).getServer (['k'] : Str) = .ok ['a'] ↔
      Live [Op.add (['a'] : Str), .add ['b']] ['a'] ∧
        ∀ w, Live [Op.add (['a'] : Str), .add ['b']] w →
          Prefers 2 sampleHash (['k'] : Str) ['a'] w) :=
  ((owner_preferred sampleHash sampleHash_injective 2 (by decide) ['k']).2.2 _
    undisturbed_both).1 ['a']

/-- A key moves only off a server that is no longer live, or to one that was not live before. -/
theorem keys_move (hash : Str → κ) (hinj : Function.Injective hash) (replicas : ℕ)
    (ops ops' : List (Op Server)) (h : Undisturbed replicas ops) (h' : Undisturbed replicas ops')
    (key : Data) (v v' : Server) (hv : (run replicas hash ops).getServer key = .ok v)
    (hv' : (run replicas hash ops').getServer key = .ok v') :
    v = v' ∨ ¬Live ops' v ∨ ¬Live ops v' := by
  have hlabelled' := labelled_of_undisturbed hinj h'
  obtain ⟨-, hpref⟩ := prefers_of_getServer (labelled_of_undisturbed hinj h) hv
  obtain ⟨-, hpref'⟩ := prefers_of_getServer hlabelled' hv'
  by_contra! hx
  obtain ⟨hne, hold, hnew⟩ := hx
  -- `v` is ranked before `v'`, so before all that are live with it
  have hstays := getServer_of_prefers hlabelled' hold fun w hw ↦ (hpref v' hnew).trans (hpref' w hw)
  rw [hv'] at hstays
  cases hstays
  exact hne rfl

/-- The key is the first label of the second server, and that server is missing. -/
theorem keys_move_two : (['b'] : Str) = ['a'] ∨ ¬Live [Op.add (['a'] : Str)] ['b'] ∨
    ¬Live [Op.add (['a'] : Str), .add ['b']] ['a'] :=
  keys_move sampleHash sampleHash_injective 2 _ _ undisturbed_both undisturbed_first
    (['b', '0'] : Str) ['b'] ['a'] (by decide +kernel) (by decide +kernel)

end FTCache.RingPreference
