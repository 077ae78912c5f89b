import Mathlib.Data.List.GetD
import Mathlib.Data.List.Pairwise
import Mathlib.Data.List.Range

/-- Byte-addressed memory of one process. -/
abbrev Memory (β : Type*) := ℕ → β

namespace Memory

variable {β : Type*}

def store (m : Memory β) (a : ℕ) (bs : List β) : Memory β :=
  fun i ↦ if a ≤ i then bs.getD (i - a) (m i) else m i

/-- The bytes of `bs` into one buffer after the other, each filled before the next. -/
def scatter (m : Memory β) : List (ℕ × ℕ) → List β → Memory β
  | [], _ => m
  | x :: iov, bs => (m.store x.1 (bs.take x.2)).scatter iov (bs.drop x.2)

def load (m : Memory β) (a n : ℕ) : List β := (List.range n).map fun i ↦ m (a + i)

@[simp]
theorem load_zero (m : Memory β) (a : ℕ) : m.load a 0 = [] := rfl

theorem load_length (m : Memory β) (a n : ℕ) : (m.load a n).length = n := by simp [load]

theorem load_take (m : Memory β) (a : ℕ) {k n : ℕ} (h : k ≤ n) :
    m.load a k = (m.load a n).take k := by
  simp [load, ← List.map_take, List.take_range, h]

@[simp]
theorem load_store (m : Memory β) (a : ℕ) (bs : List β) :
    (m.store a bs).load a bs.length = bs := by
  apply List.ext_getElem
  · simp [load]
  · intro i h h'
    simp [load, store, h']

theorem load_congr {m m' : Memory β} {a n : ℕ} (h : ∀ i < n, m (a + i) = m' (a + i)) :
    m.load a n = m'.load a n :=
  List.map_congr_left fun i hi ↦ h i (List.mem_range.mp hi)

theorem store_inside (m : Memory β) (a : ℕ) {bs : List β} {i : ℕ} (h : i < bs.length) :
    m.store a bs (a + i) = bs[i] := by
  simp [store, h]

theorem store_outside (m : Memory β) {a : ℕ} {bs : List β} {i : ℕ}
    (h : i < a ∨ a + bs.length ≤ i) : m.store a bs i = m i := by
  unfold store
  split
  · exact List.getD_eq_default _ _ (by omega)
  · rfl

/-- One store after the other. -/
def stores (m : Memory β) : List (ℕ × List β) → Memory β
  | [] => m
  | x :: xs => (m.store x.1 x.2).stores xs

/-- What is stored at two addresses does not overlap. -/
def Apart (x y : ℕ × List β) : Prop := x.1 + x.2.length ≤ y.1 ∨ y.1 + y.2.length ≤ x.1

/-- What is stored at an address of `V` is there already. -/
def Spares (V : ℕ → Prop) (m : Memory β) (xs : List (ℕ × List β)) : Prop :=
  ∀ x ∈ xs, ∀ i, ∀ h : i < x.2.length, V (x.1 + i) → m (x.1 + i) = x.2[i]

instance [DecidableEq β] (V : ℕ → Prop) [DecidablePred V] (m : Memory β)
    (xs : List (ℕ × List β)) : Decidable (Spares V m xs) := by
  unfold Spares
  infer_instance

variable {m : Memory β} {xs : List (ℕ × List β)} {V : ℕ → Prop}

theorem stores_outside {i : ℕ} (h : ∀ x ∈ xs, i < x.1 ∨ x.1 + x.2.length ≤ i) :
    m.stores xs i = m i := by
  induction xs generalizing m with
  | nil => rfl
  | cons x xs ih =>
    rw [stores, ih fun y hy ↦ h y (List.mem_cons_of_mem x hy)]
    exact store_outside m (h x List.mem_cons_self)

theorem stores_inside (hd : xs.Pairwise Apart) {x : ℕ × List β} (hx : x ∈ xs) {i : ℕ}
    (h : i < x.2.length) : m.stores xs (x.1 + i) = x.2[i] := by
  induction xs generalizing m with
  | nil => cases hx
  | cons y xs ih =>
    obtain ⟨hy, hd⟩ := List.pairwise_cons.mp hd
    rcases List.mem_cons.mp hx with rfl | hx
    · rw [stores, stores_outside fun z hz ↦ ?_]
      · exact store_inside m x.1 h
      · have hz := hy z hz
        unfold Apart at hz
        omega
    · exact ih hd hx

theorem load_stores (hd : xs.Pairwise Apart) {x : ℕ × List β} (hx : x ∈ xs) :
    (m.stores xs).load x.1 x.2.length = x.2 := by
  apply List.ext_getElem
  · simp [load]
  · intro i h h'
    simp [load, stores_inside hd hx h']

theorem Spares.mono {V' : ℕ → Prop} (h : Spares V m xs) (hv : ∀ a, V' a → V a) :
    Spares V' m xs :=
  fun x hx i hi hV ↦ h x hx i hi (hv _ hV)

theorem stores_of_spares (h : Spares V m xs) {a : ℕ} (ha : V a) : m.stores xs a = m a := by
  induction xs generalizing m with
  | nil => rfl
  | cons x xs ih =>
    have hstore {b : ℕ} (hb : V b) : m.store x.1 x.2 b = m b := by
      by_cases hin : x.1 ≤ b ∧ b < x.1 + x.2.length
      · obtain ⟨i, rfl⟩ := Nat.exists_eq_add_of_le hin.1
        have hi : i < x.2.length := by omega
        rw [store_inside m x.1 hi, h x List.mem_cons_self i hi hb]
      · exact store_outside m (by omega)
    rw [stores, ih fun y hy i hi hV ↦ ?_, hstore ha]
    rw [hstore hV]
    exact h y (List.mem_cons_of_mem x hy) i hi hV

/-- Stores that do not overlap change nothing at the addresses of `V` exactly if what they
store there is there already. -/
theorem spares_iff (hd : xs.Pairwise Apart) :
    Spares V m xs ↔ ∀ a, V a → m.stores xs a = m a := by
  constructor
  · intro h a ha
    exact stores_of_spares h ha
  · intro h x hx i hi hV
    rw [← h _ hV, stores_inside hd hx hi]

end Memory
