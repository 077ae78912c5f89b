import Mathlib.Algebra.Order.Group.Nat
import Mathlib.Logic.Relation

/-! Mutexes, seen through the places of the threads that take them. -/

namespace Locks

variable {T M : Type*}

/-- Who holds each lock, which locks a thread has taken at the place where it stands, and
the lock it waits for there. -/
structure View (T M : Type*) where
  holder : M → Option T
  taken : T → List M
  wanted : T → Option M

namespace View

variable (v v' : View T M)

/-- The locks agree with the places of the threads. -/
def Sound : Prop := ∀ t m, m ∈ v.taken t ↔ v.holder m = some t

/-- `t` waits for a lock that `u` holds. -/
def Blocks (t u : T) : Prop := ∃ m, v.wanted t = some m ∧ v.holder m = some u

/-- A thread waits only for a lock above all that it has taken. -/
def Ordered (rank : M → ℕ) : Prop := ∀ t m, v.wanted t = some m → ∀ k ∈ v.taken t, rank k < rank m

variable {v v'}

theorem Sound.congr (h : v.Sound) (ht : ∀ u, v'.taken u = v.taken u)
    (hh : v'.holder = v.holder) : v'.Sound := by
  intro u k
  rw [ht, hh]
  exact h u k

section Step

variable [DecidableEq M] {t : T} {m : M}

theorem Sound.acquire (h : v.Sound) (hfree : v.holder m = none)
    (hother : ∀ u, u ≠ t → v'.taken u = v.taken u) (ht : v'.taken t = m :: v.taken t)
    (hh : v'.holder = Function.update v.holder m (some t)) : v'.Sound := by
  intro u k
  rw [hh]
  by_cases hu : u = t
  · subst hu
    by_cases hk : k = m
    · simp [ht, hk]
    · simpa [ht, hk] using h u k
  · rw [hother u hu, h u k]
    by_cases hk : k = m
    · simp [hk, hfree, Ne.symm hu]
    · simp [hk]

theorem Sound.release (h : v.Sound) (hother : ∀ u, u ≠ t → v'.taken u = v.taken u)
    (ht : v.taken t = m :: v'.taken t) (hm : m ∉ v'.taken t)
    (hh : v'.holder = Function.update v.holder m none) : v'.Sound := by
  have hholder : v.holder m = some t := (h t m).mp (by simp [ht])
  intro u k
  rw [hh]
  by_cases hk : k = m
  · subst hk
    by_cases hu : u = t
    · simp [hu, hm]
    · simp [hother u hu, h u k, hholder, Ne.symm hu]
  · by_cases hu : u = t
    · subst hu
      simpa [ht, hk] using h u k
    · simpa [hother u hu, hk] using h u k

end Step

theorem Blocks.rank_le {rank : M → ℕ} (hs : v.Sound) (ho : v.Ordered rank) {t u : T}
    (h : Relation.TransGen v.Blocks t u) :
    ∃ m k, v.wanted t = some m ∧ k ∈ v.taken u ∧ rank m ≤ rank k := by
  induction h with
  | single h =>
    obtain ⟨m, hm, hu⟩ := h
    exact ⟨m, m, hm, (hs _ m).mpr hu, le_rfl⟩
  | tail _ h ih =>
    obtain ⟨m, k, hm, hk, hle⟩ := ih
    obtain ⟨n, hn, hw⟩ := h
    exact ⟨m, n, hm, (hs _ n).mpr hw, hle.trans (ho _ n hn k hk).le⟩

/-- Locks taken in one order never close a circle of waiting threads. -/
theorem Ordered.no_circle {rank : M → ℕ} (ho : v.Ordered rank) (hs : v.Sound) (t : T) :
    ¬Relation.TransGen v.Blocks t t := by
  intro h
  obtain ⟨m, k, hm, hk, hle⟩ := Blocks.rank_le hs ho h
  exact absurd (ho t m hm k hk) (Nat.not_lt.mpr hle)

/-- Where the order has a top, and a thread moves once it holds a lock and waits for none that
is held, there is a thread that moves behind every wait. -/
theorem Ordered.unblocks {rank : M → ℕ} {n : ℕ} {Moves : T → Prop} (hrank : ∀ m, rank m ≤ n)
    (ho : v.Ordered rank) (hs : v.Sound)
    (hmoves : ∀ t m, v.holder m = some t → (∀ u, ¬v.Blocks t u) → Moves t) {t u : T}
    (h : v.Blocks t u) : ∃ w, Relation.TransGen v.Blocks t w ∧ Moves w := by
  obtain ⟨m, hm, hu⟩ := h
  induction hk : n - rank m using Nat.strong_induction_on generalizing t u m with
  | h k ih =>
    have hb : v.Blocks t u := ⟨m, hm, hu⟩
    by_cases hnext : ∃ w, v.Blocks u w
    · obtain ⟨w, m', hm', hw⟩ := hnext
      have hlt := ho u m' hm' m ((hs u m).mpr hu)
      have hle := hrank m'
      obtain ⟨x, hx, hmove⟩ := ih (n - rank m') (by omega) m' hm' hw rfl
      exact ⟨x, .head hb hx, hmove⟩
    · exact ⟨u, .single hb, hmoves u m hu (not_exists.mp hnext)⟩

end View

end Locks
