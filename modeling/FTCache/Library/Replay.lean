import Mathlib.Data.List.Basic

/-! Histories of calls, compared with what a sequential object would have answered. -/

namespace Replay

variable {σ κ ρ : Type*} (f : σ → κ → σ × ρ)

/-- The state of the object after the calls of a history. -/
def after (a : σ) : List (κ × ρ) → σ
  | [] => a
  | x :: rest => after (f a x.1).1 rest

/-- Every answer in the history is the one the object gives. -/
def Agrees (a : σ) : List (κ × ρ) → Prop
  | [] => True
  | x :: rest => (f a x.1).2 = x.2 ∧ Agrees (f a x.1).1 rest

variable {f}

theorem after_concat (a : σ) (xs : List (κ × ρ)) (x : κ × ρ) :
    after f a (xs ++ [x]) = (f (after f a xs) x.1).1 := by
  induction xs generalizing a with
  | nil => rfl
  | cons y ys ih => exact ih _

theorem agrees_concat (a : σ) (xs : List (κ × ρ)) (x : κ × ρ) :
    Agrees f a (xs ++ [x]) ↔ Agrees f a xs ∧ (f (after f a xs) x.1).2 = x.2 := by
  induction xs generalizing a with
  | nil => simp [Agrees, after]
  | cons y ys ih => simp [Agrees, after, ih, and_assoc]

end Replay
