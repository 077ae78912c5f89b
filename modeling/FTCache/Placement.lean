import FTCache.HashRing
import Mathlib.Data.Finset.Card
import Mathlib.Data.List.DropRight

namespace FTCache.Placement

open HashRing

inductive Op (Server : Type*)
  | add (server : Server)
  | remove (server : Server)
  deriving DecidableEq

variable {Server Data κ : Type*} [LinearOrder κ] [Stringify Server] [Stringify Data]

def Op.server : Op Server → Server
  | .add server => server
  | .remove server => server

/-- The server has been added, and not removed since. -/
def Live (ops : List (Op Server)) (v : Server) : Prop :=
  ∃ pre post, ops = pre ++ .add v :: post ∧ .remove v ∉ post

def apply (h : HashRing Server κ) : Op Server → HashRing Server κ
  | .add server => (h.addServer server).1
  | .remove server => h.removeServer server

def run (replicas : ℕ) (hash : Str → κ) (ops : List (Op Server)) : HashRing Server κ :=
  ops.foldl apply (.new Server replicas hash)

variable {replicas : ℕ} {hash : Str → κ} {ops : List (Op Server)}

omit [Stringify Server] in
theorem not_live_nil (v : Server) : ¬Live [] v := by
  intro hx
  obtain ⟨pre, post, h, -⟩ := hx
  simp at h

omit [Stringify Server] in
theorem live_concat {op : Op Server} {v : Server} :
    Live (ops ++ [op]) v ↔ op = .add v ∨ op ≠ .remove v ∧ Live ops v := by
  constructor
  · intro hx
    obtain ⟨pre, post, h, hpost⟩ := hx
    rcases List.eq_nil_or_concat post with rfl | ⟨post, op', rfl⟩
    · obtain ⟨-, hop⟩ := List.append_inj' h rfl
      exact .inl (by simpa using hop)
    · have h' : ops ++ [op] = (pre ++ .add v :: post) ++ [op'] := by simp [h]
      obtain ⟨rfl, hop⟩ := List.append_inj' h' rfl
      obtain rfl : op = op' := by simpa using hop
      rw [List.concat_eq_append, List.mem_append, not_or] at hpost
      exact .inr ⟨fun he ↦ hpost.2 (by simp [he]), pre, post, rfl, hpost.1⟩
  · rintro (rfl | ⟨hop, pre, post, rfl, hpost⟩)
    · exact ⟨ops, [], rfl, by simp⟩
    · exact ⟨pre, post ++ [op], by simp, by simp [hpost, hop.symm]⟩

theorem run_concat (op : Op Server) :
    run replicas hash (ops ++ [op]) = apply (run replicas hash ops) op := by
  simp [run]

theorem run_constant (ops : List (Op Server)) :
    (run replicas hash ops).replicas_ = replicas ∧ (run replicas hash ops).hash_ = hash := by
  induction ops using List.reverseRecOn with
  | nil => exact ⟨rfl, rfl⟩
  | append_singleton ops op ih =>
    rw [run_concat]
    cases op with
    | add s => rw [apply, addServer_ring]; exact ih
    | remove s => rw [apply, removeServer_ring]; exact ih

/-- The string a replica is hashed under. -/
def label (v : Server) (r : ℕ) : Str := cStr (stringify v ++ toStr r)

theorem run_position (ops : List (Op Server)) (v : Server) (r : ℕ) :
    (run replicas hash ops).position v r = hash (label v r) := by
  rw [position, (run_constant ops).2]
  rfl

theorem mem_run_positions {v : Server} {p : κ} :
    p ∈ (run replicas hash ops).positions v ↔ ∃ r < replicas, p = hash (label v r) := by
  simp only [mem_positions, run_constant, run_position]

theorem mem_run_add {s v : Server} {p : κ} :
    (p, v) ∈ (run replicas hash (ops ++ [.add s])).ring_ ↔
      (∃ r < replicas, p = hash (label s r)) ∧ v = s ∨
        (¬∃ r < replicas, p = hash (label s r)) ∧ (p, v) ∈ (run replicas hash ops).ring_ := by
  rw [run_concat, apply, addServer_ring]
  simp only [OrderedMap.mem_insertAll, mem_run_positions]

theorem mem_run_remove {s v : Server} {p : κ} :
    (p, v) ∈ (run replicas hash (ops ++ [.remove s])).ring_ ↔
      (¬∃ r < replicas, p = hash (label s r)) ∧ (p, v) ∈ (run replicas hash ops).ring_ := by
  rw [run_concat, apply, removeServer_ring]
  simp only [OrderedMap.mem_eraseAll, mem_run_positions]

theorem entries_live (replicas : ℕ) (hash : Str → κ) (ops : List (Op Server)) {p : κ} {v : Server}
    (h : (p, v) ∈ (run replicas hash ops).ring_) :
    Live ops v ∧ ∃ r < replicas, p = hash (label v r) := by
  induction ops using List.reverseRecOn with
  | nil => exact absurd h (OrderedMap.not_mem_empty _)
  | append_singleton ops op ih =>
    rw [live_concat]
    cases op with
    | add s =>
      rcases mem_run_add.mp h with ⟨hp, rfl⟩ | ⟨-, h⟩
      · exact ⟨.inl rfl, hp⟩
      · obtain ⟨hlive, hp⟩ := ih h
        exact ⟨.inr ⟨by simp, hlive⟩, hp⟩
    | remove s =>
      obtain ⟨hp, h⟩ := mem_run_remove.mp h
      obtain ⟨hlive, hr⟩ := ih h
      -- all positions of the removed server have been erased
      have hne : s ≠ v := by
        intro he
        subst he
        exact hp hr
      exact ⟨.inr ⟨by simpa using hne, hlive⟩, hr⟩

/-- A removed server is never returned. -/
theorem removed_server_never_returned [DecidableEq Server] (hash : Str → κ) (replicas : ℕ)
    (ops : List (Op Server)) :
    (∀ p v, (p, v) ∈ (run replicas hash ops).ring_ →
      Live ops v ∧ ∃ r < replicas, p = hash (cStr (stringify v ++ toStr r))) ∧
    (∀ (data : Data) v, (run replicas hash ops).getServer data = .ok v → Live ops v) ∧
    ∀ (data : List Data) d v, (run replicas hash ops).getDistribution data = .ok d →
      (d v).isSome → Live ops v := by
  have hget {item : Data} {v : Server} (h : (run replicas hash ops).getServer item = .ok v) :
      Live ops v := by
    obtain ⟨p, hp⟩ := getServer_mem h
    exact (entries_live replicas hash ops hp).1
  refine ⟨fun p v h ↦ entries_live replicas hash ops h, fun data v h ↦ hget h, ?_⟩
  intro data d v hd hv
  obtain ⟨item, -, hitem⟩ := getDistribution_bucket hd hv
  exact hget hitem

/-- The names as they are given, with a NUL in them: `c_str()` cuts the label off there. -/
theorem removed_server_cut_label :
    ¬∀ (hash : Str → ℕ) (replicas : ℕ) (ops : List (Op Str)), ∀ p v,
      (p, v) ∈ (run replicas hash ops).ring_ →
        Live ops v ∧ ∃ r < replicas, p = hash (stringify v ++ toStr r) := by
  intro h
  have hmem : (0, [Char.ofNat 0]) ∈ (run 1 List.length ([] ++ [.add [Char.ofNat 0]])).ring_ :=
    mem_run_add.mpr (.inl ⟨⟨0, Nat.one_pos, rfl⟩, rfl⟩)
  obtain ⟨-, r, -, he⟩ := h List.length 1 _ _ _ hmem
  simp [stringify] at he

theorem getServer_add {h : HashRing Server κ} {data : Data} {v : Server} (s : Server)
    (hv : h.getServer data = .ok v) :
    (h.addServer s).1.getServer data = .ok v ∨ (h.addServer s).1.getServer data = .ok s := by
  obtain ⟨p, hp⟩ := getServer_eq_ok.mp hv
  have hring : (h.addServer s).1.ring_ = h.ring_.insertAll (h.positions s) s := by
    rw [addServer_ring]
  have hhash : (h.addServer s).1.hash_ = h.hash_ := by rw [addServer_ring]
  have hne : (h.addServer s).1.ring_.entries ≠ [] := by
    have hmem := (OrderedMap.atOrAfter_nearest hp).1
    rw [hring]
    intro hnil
    by_cases hps : p ∈ h.positions s
    · have hs : (p, s) ∈ h.ring_.insertAll (h.positions s) s := by simp [hps]
      simp [OrderedMap.mem_def, hnil] at hs
    · have hs : (p, v) ∈ h.ring_.insertAll (h.positions s) s := by simp [hps, hmem]
      simp [OrderedMap.mem_def, hnil] at hs
  obtain ⟨w, hw⟩ := getServer_isOk hne data
  obtain ⟨q, hq⟩ := getServer_eq_ok.mp hw
  rw [hring, hhash] at hq
  rcases OrderedMap.atOrAfter_insertAll hq with hws | hold
  · exact .inr (hws ▸ hw)
  · rw [hp] at hold
    cases hold
    exact .inl hw

/-- Adding a server only attracts keys. -/
theorem adding_attracts_keys (hash : Str → κ) (replicas : ℕ) (ops : List (Op Server)) (s v : Server)
    (k : Data) (h : (run replicas hash ops).getServer k = .ok v) :
    (run replicas hash (ops ++ [.add s])).getServer k = .ok v ∨
      (run replicas hash (ops ++ [.add s])).getServer k = .ok s := by
  rw [run_concat]
  exact getServer_add s h

/-- The hash is the length of a string, so that labels collide. -/
theorem adding_attracts_keys_collision :
    (run 2 List.length ([.add ['a']] ++ [.add ['b']])).getServer ['k'] = .ok ['a'] ∨
      (run 2 List.length ([.add ['a']] ++ [.add ['b']])).getServer ['k'] = .ok ['b'] :=
  adding_attracts_keys List.length 2 [.add ['a']] ['b'] ['a'] ['k'] rfl

end FTCache.Placement
