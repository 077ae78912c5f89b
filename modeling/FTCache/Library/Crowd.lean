import Mathlib.Algebra.BigOperators.Group.Finset.Piecewise
import Mathlib.Data.Fintype.Card

/-! Finitely many threads, each at a place of its program, and how many stand where. -/

namespace Crowd

variable {T π : Type*} [Fintype T] [DecidableEq T]

/-- The number of threads whose place has `P`. -/
def crowd (places : T → π) (P : π → Prop) [DecidablePred P] : ℕ :=
  (Finset.univ.filter fun t ↦ P (places t)).card

variable {places : T → π} {P : π → Prop} [DecidablePred P] {t : T} {p : π}

omit [DecidableEq T] in
theorem crowd_le (places : T → π) (P : π → Prop) [DecidablePred P] :
    crowd places P ≤ Fintype.card T :=
  Finset.card_le_univ _

theorem crowd_update_of_iff (h : P (places t) ↔ P p) :
    crowd (Function.update places t p) P = crowd places P := by
  unfold crowd
  congr 1
  ext u
  by_cases hu : u = t
  · subst hu
    simp [h]
  · simp [hu]

theorem crowd_update_leave (h : P (places t)) (hp : ¬P p) :
    crowd (Function.update places t p) P + 1 = crowd places P := by
  unfold crowd
  have hmem : t ∈ Finset.univ.filter fun u ↦ P (places u) := by simpa using h
  rw [← Finset.card_erase_add_one hmem]
  congr 2
  ext u
  by_cases hu : u = t
  · subst hu
    simp [hp]
  · simp [hu]

/-- What the places of all threads add up to. -/
def total (places : T → π) (f : π → ℕ) : ℕ := ∑ t, f (places t)

theorem total_update (places : T → π) (f : π → ℕ) (t : T) (p : π) :
    total (Function.update places t p) f + f (places t) = total places f + f p := by
  have hf : (fun u ↦ f (Function.update places t p u)) =
      Function.update (fun u ↦ f (places u)) t (f p) := by
    funext u
    exact Function.apply_update (fun _ ↦ f) places t p u
  have hnew : total (Function.update places t p) f =
      f p + ∑ u ∈ Finset.univ \ {t}, f (places u) := by
    rw [total, hf, Finset.sum_update_of_mem (Finset.mem_univ t)]
  have hold := Finset.add_sum_erase Finset.univ (fun u ↦ f (places u)) (Finset.mem_univ t)
  rw [← Finset.sdiff_singleton_eq_erase] at hold
  simp only [total] at hnew hold ⊢
  omega

end Crowd
