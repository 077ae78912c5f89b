import FTCache.Library.PartialMap
import Mathlib.Tactic.SplitIfs

/-- A book of who names which resource. Apart from null resources, which anyone
may name, the live resources are the named ones, and each has one holder. -/
structure Ledger {ο ρ : Type*} (null : ρ → Prop) (names : PMap ο ρ) (live : ρ → Prop) : Prop where
  sole : ∀ r, ¬null r → ∀ o o', names o = some r → names o' = some r → o = o'
  named : ∀ r, ¬null r → (live r ↔ ∃ o, names o = some r)

namespace Ledger

variable {ο ρ : Type*} {null : ρ → Prop} {names : PMap ο ρ} {live : ρ → Prop}

theorem live_of_names (h : Ledger null names live) {o : ο} {r : ρ} (ho : names o = some r)
    (hr : ¬null r) : live r :=
  (h.named r hr).mpr ⟨o, ho⟩

theorem existsUnique (h : Ledger null names live) {r : ρ} (hr : ¬null r) (hl : live r) :
    ∃! o, names o = some r := by
  obtain ⟨o, ho⟩ := (h.named r hr).mp hl
  exact ⟨o, ho, fun o' ho' ↦ h.sole r hr o' o ho' ho⟩

theorem congr (h : Ledger null names live) {live' : ρ → Prop}
    (hl : ∀ r, ¬null r → (live' r ↔ live r)) : Ledger null names live' :=
  ⟨h.sole, fun r hr ↦ (hl r hr).trans (h.named r hr)⟩

variable [DecidableEq ο]

/-- What `a` names is handed over to `b`. -/
def transfer (names : PMap ο ρ) (a b : ο) : PMap ο ρ :=
  fun o ↦ if o = b then names a else if o = a then none else names o

theorem move (h : Ledger null names live) {a b : ο} (hb : names b = none) :
    Ledger null (transfer names a b) live := by
  -- every holder in the new book stands for one in the old
  have hold (o : ο) (r : ρ) (ho : transfer names a b o = some r) :
      (o = b ∧ names a = some r) ∨ (o ≠ b ∧ o ≠ a ∧ names o = some r) := by
    unfold transfer at ho
    split_ifs at ho with h₁ h₂
    · exact .inl ⟨h₁, ho⟩
    · exact .inr ⟨h₁, h₂, ho⟩
  refine ⟨fun r hr o o' ho ho' ↦ ?_, fun r hr ↦ ?_⟩
  · rcases hold o r ho with ⟨rfl, h₁⟩ | ⟨h₁, h₂, h₃⟩ <;>
      rcases hold o' r ho' with ⟨rfl, h₁'⟩ | ⟨h₁', h₂', h₃'⟩
    · rfl
    · exact absurd (h.sole r hr _ _ h₃' h₁) h₂'
    · exact absurd (h.sole r hr _ _ h₃ h₁') h₂
    · exact h.sole r hr _ _ h₃ h₃'
  · rw [h.named r hr]
    constructor
    · intro hx
      obtain ⟨o, ho⟩ := hx
      have hne : o ≠ b := by
        intro he
        subst he
        simp [hb] at ho
      by_cases ha : o = a
      · subst o
        exact ⟨b, by simpa [transfer] using ho⟩
      · exact ⟨o, by simpa [transfer, hne, ha] using ho⟩
    · intro hx
      obtain ⟨o, ho⟩ := hx
      rcases hold o r ho with ⟨-, h₁⟩ | ⟨-, -, h₁⟩
      · exact ⟨a, h₁⟩
      · exact ⟨o, h₁⟩

/-- A resource comes to life in the hands of `a`. -/
theorem acquire (h : Ledger null names live) {a : ο} {r : ρ} (ha : names a = none)
    (hr : ¬null r → ¬live r) : Ledger null (names.insert a r) fun s ↦ s = r ∨ live s := by
  refine ⟨fun s hs o o' ho ho' ↦ ?_, fun s hs ↦ ?_⟩
  · simp only [PMap.insert_apply] at ho ho'
    split_ifs at ho ho' with h₁ h₂ h₂
    · rw [h₁, h₂]
    · obtain rfl := Option.some.inj ho
      exact absurd (h.live_of_names ho' hs) (hr hs)
    · obtain rfl := Option.some.inj ho'
      exact absurd (h.live_of_names ho hs) (hr hs)
    · exact h.sole s hs _ _ ho ho'
  · constructor
    · rintro (rfl | hl)
      · exact ⟨a, by simp⟩
      · obtain ⟨o, ho⟩ := (h.named s hs).mp hl
        have hne : o ≠ a := by
          intro he
          subst he
          simp [ha] at ho
        exact ⟨o, by simpa [hne] using ho⟩
    · intro hx
      obtain ⟨o, ho⟩ := hx
      simp only [PMap.insert_apply] at ho
      split_ifs at ho
      · exact .inl (Option.some.inj ho).symm
      · exact .inr (h.live_of_names ho hs)

/-- The holder of a resource gives it up, and the resource dies. -/
theorem release (h : Ledger null names live) {a : ο} {r : ρ} (ha : names a = some r) :
    Ledger null (names.erase a) fun s ↦ live s ∧ s ≠ r := by
  have hold (o : ο) (s : ρ) (ho : names.erase a o = some s) : o ≠ a ∧ names o = some s := by
    simp only [PMap.erase_apply] at ho
    split_ifs at ho with h₁
    exact ⟨h₁, ho⟩
  refine ⟨fun s hs o o' ho ho' ↦ h.sole s hs _ _ (hold o s ho).2 (hold o' s ho').2, fun s hs ↦ ?_⟩
  constructor
  · intro hx
    obtain ⟨hl, hne⟩ := hx
    obtain ⟨o, ho⟩ := (h.named s hs).mp hl
    have hoa : o ≠ a := by
      intro he
      subst he
      exact hne (Option.some.inj (ho.symm.trans ha))
    exact ⟨o, by simpa [hoa] using ho⟩
  · intro hx
    obtain ⟨o, ho⟩ := hx
    obtain ⟨hoa, ho⟩ := hold o s ho
    refine ⟨h.live_of_names ho hs, ?_⟩
    intro he
    subst he
    exact hoa (h.sole s hs _ _ ho ha)

end Ledger
