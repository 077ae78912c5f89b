import FTCache.Library.OrderedMap
import FTCache.Library.PartialMap
import Mathlib.Data.Finset.Basic

namespace FTCache

abbrev Str := List Char

/-- What is left of a string behind `c_str()`: the characters before the first NUL. -/
def cStr (s : Str) : Str := s.takeWhile (· ≠ Char.ofNat 0)

/-- `std::to_string` of an unsigned number. -/
def toStr (n : ℕ) : Str := Nat.toDigits 10 n

/-- The types `StringifyServer` and `StringifyData` are compiled for. -/
class Stringify (α : Type*) where
  stringify : α → Str

export Stringify (stringify)

instance : Stringify Str := ⟨id⟩

instance : Stringify ℕ := ⟨toStr⟩

/-- The ring of the load simulation, over any ordered type of positions. -/
@[ext]
structure HashRing (Server κ : Type*) [LinearOrder κ] where
  ring_ : OrderedMap κ Server
  replicas_ : ℕ
  hash_ : Str → κ

namespace HashRing

variable {Server Data κ : Type*} [LinearOrder κ]

def new (Server : Type*) (replicas : ℕ) (hash : Str → κ) : HashRing Server κ :=
  ⟨.empty, replicas, hash⟩

def stringifyReplica (num : ℕ) : Str := toStr num

section Servers

variable [Stringify Server] (h : HashRing Server κ)

def position (server : Server) (r : ℕ) : κ :=
  h.hash_ (cStr (stringify server ++ stringifyReplica r))

/-- One turn of the loop of `AddServer`; the second component is the variable `hash`. -/
def addReplica (server : Server) (s : HashRing Server κ × Option κ) (r : ℕ) :
    HashRing Server κ × Option κ :=
  let hash := s.1.position server r
  ({ s.1 with ring_ := s.1.ring_.insert hash server }, some hash)

/-- With no replica the value returned was never set. -/
def addServer (server : Server) : HashRing Server κ × Option κ :=
  (List.range h.replicas_).foldl (addReplica server) (h, none)

def removeReplica (server : Server) (h : HashRing Server κ) (r : ℕ) : HashRing Server κ :=
  { h with ring_ := h.ring_.erase (h.position server r) }

def removeServer (server : Server) : HashRing Server κ :=
  (List.range h.replicas_).foldl (removeReplica server) h

def positions (server : Server) : List κ := (List.range h.replicas_).map (h.position server)

variable {h}

theorem mem_positions {server : Server} {p : κ} :
    p ∈ h.positions server ↔ ∃ r < h.replicas_, p = h.position server r := by
  simp [positions, eq_comm]

theorem addServer_ring (h : HashRing Server κ) (server : Server) :
    (h.addServer server).1 = { h with ring_ := h.ring_.insertAll (h.positions server) server } := by
  have hloop : ∀ (rs : List ℕ) (s : HashRing Server κ × Option κ),
      (rs.foldl (addReplica server) s).1 =
        { s.1 with ring_ := s.1.ring_.insertAll (rs.map (s.1.position server)) server } := by
    intro rs
    induction rs with
    | nil => exact fun s ↦ rfl
    | cons r rs ih => exact fun s ↦ ih (addReplica server s r)
  exact hloop _ (h, none)

theorem removeServer_ring (h : HashRing Server κ) (server : Server) :
    h.removeServer server = { h with ring_ := h.ring_.eraseAll (h.positions server) } := by
  have hloop : ∀ (rs : List ℕ) (h : HashRing Server κ), rs.foldl (removeReplica server) h =
      { h with ring_ := h.ring_.eraseAll (rs.map (h.position server)) } := by
    intro rs
    induction rs with
    | nil => exact fun h ↦ rfl
    | cons r rs ih => exact fun h ↦ ih (removeReplica server h r)
  exact hloop _ h

end Servers

variable [Stringify Data] (h : HashRing Server κ)

def getServer (data : Data) : Except String Server :=
  match h.ring_.entries with
  | [] => .error "Empty ring"
  | first :: _ => .ok ((h.ring_.lowerBound (h.hash_ (cStr (stringify data)))).getD first).2

/-- One turn of the loop of `GetDistribution`. -/
def distribute [DecidableEq Server] (distribution : PMap Server (List Data)) (item : Data) :
    Except String (PMap Server (List Data)) :=
  (h.getServer item).map fun server ↦
    distribution.insert server (distribution.index server ++ [item])

def getDistribution [DecidableEq Server] (data : List Data) :
    Except String (PMap Server (List Data)) :=
  data.foldlM h.distribute fun _ ↦ none

variable {h}

/-- `GetServer` answers with the server of the entry met first. -/
theorem getServer_eq_ok {data : Data} {server : Server} : h.getServer data = .ok server ↔
    ∃ p, h.ring_.atOrAfter (h.hash_ (cStr (stringify data))) = some (p, server) := by
  unfold getServer OrderedMap.atOrAfter
  cases he : h.ring_.entries with
  | nil => simp [OrderedMap.lowerBound, he]
  | cons first es =>
    cases hl : h.ring_.lowerBound (h.hash_ (cStr (stringify data))) with
    | some it => simp [Prod.ext_iff]
    | none => simp [Prod.ext_iff]

theorem getServer_isOk (hne : h.ring_.entries ≠ []) (data : Data) :
    ∃ server, h.getServer data = .ok server := by
  cases hs : h.ring_.atOrAfter (h.hash_ (cStr (stringify data))) with
  | none => exact absurd (OrderedMap.atOrAfter_eq_none.mp hs) hne
  | some e => exact ⟨e.2, getServer_eq_ok.mpr ⟨e.1, hs⟩⟩

theorem getServer_mem {data : Data} {server : Server} (hs : h.getServer data = .ok server) :
    ∃ p, (p, server) ∈ h.ring_ := by
  obtain ⟨p, hp⟩ := getServer_eq_ok.mp hs
  exact ⟨p, (OrderedMap.atOrAfter_nearest hp).1⟩

theorem distribute_bucket [DecidableEq Server] {data : List Data}
    {d d' : PMap Server (List Data)} (hd : data.foldlM h.distribute d = .ok d') {server : Server}
    (hs : (d' server).isSome) :
    (d server).isSome ∨ ∃ item ∈ data, h.getServer item = .ok server := by
  induction data generalizing d with
  | nil =>
    cases hd
    exact .inl hs
  | cons item data ih =>
    rw [List.foldlM_cons] at hd
    cases hg : h.getServer item with
    | error e =>
      rw [distribute, hg] at hd
      cases hd
    | ok server' =>
      rw [distribute, hg] at hd
      rcases ih hd with hold | ⟨item', hmem, hitem'⟩
      · by_cases he : server = server'
        · exact .inr ⟨item, List.mem_cons_self, he ▸ hg⟩
        · exact .inl (by simpa [he] using hold)
      · exact .inr ⟨item', List.mem_cons_of_mem _ hmem, hitem'⟩

theorem getDistribution_bucket [DecidableEq Server] {data : List Data}
    {d : PMap Server (List Data)} (hd : h.getDistribution data = .ok d) {server : Server}
    (hs : (d server).isSome) : ∃ item ∈ data, h.getServer item = .ok server :=
  (distribute_bucket hd hs).resolve_left (by simp)

end HashRing

end FTCache
