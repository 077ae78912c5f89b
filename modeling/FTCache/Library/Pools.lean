import Mathlib.Algebra.BigOperators.Group.Multiset.Basic
import Mathlib.Algebra.Order.Group.Multiset
import Mathlib.Data.Multiset.Bind

/-! Code that acquires, uses and releases resources, and the requests that own them. -/

namespace Pools

variable {ρ τ α β : Type}

/-- Code over the resources that are alive; it is stuck where it uses or releases one that
is not. -/
abbrev Code (ρ α : Type) := StateT (Multiset ρ) Option α

def acquire (r : ρ) : Code ρ Unit := fun live ↦ some ((), r ::ₘ live)

/-- With `own`, whatever else is alive, the code ends with `a` and leaves `own'`. -/
def Yields (own : Multiset ρ) (c : Code ρ α) (a : α) (own' : Multiset ρ) : Prop :=
  ∀ rest, c.run (own + rest) = some (a, own' + rest)

variable {own own' own'' : Multiset ρ} {c : Code ρ α} {a : α}

theorem Yields.pure (own : Multiset ρ) (a : α) : Yields own (Pure.pure a : Code ρ α) a own :=
  fun _ ↦ rfl

theorem Yields.bind {f : α → Code ρ β} {b : β} (h : Yields own c a own')
    (hf : Yields own' (f a) b own'') : Yields own (c >>= f) b own'' := by
  intro rest
  rw [StateT.run_bind, h rest]
  exact hf rest

theorem Yields.acquire (own : Multiset ρ) (r : ρ) :
    Yields own (Pools.acquire r) () (r ::ₘ own) := by
  intro rest
  rw [Multiset.cons_add]
  rfl

/-- With `own`, whatever else is alive, the code ends, and its end meets `P`. -/
def Meets (own : Multiset ρ) (c : Code ρ α) (P : α → Multiset ρ → Prop) : Prop :=
  ∃ a own', Yields own c a own' ∧ P a own'

/-- With `own` and without `r`, whatever else is alive, the code gets stuck. -/
def Sticks (own : Multiset ρ) (c : Code ρ α) (r : ρ) : Prop :=
  ∀ rest, r ∉ own + rest → c.run (own + rest) = none

section Rules

variable {P : α → Multiset ρ → Prop} {r r' : ρ} {f : Unit → Code ρ α}

theorem Meets.pure (h : P a own) : Meets own (Pure.pure a : Code ρ α) P :=
  ⟨a, own, .pure own a, h⟩

theorem Meets.bind {c : Code ρ β} {b : β} {f : β → Code ρ α} (h : Yields own c b own')
    (hf : Meets own' (f b) P) : Meets own (c >>= f) P := by
  obtain ⟨a, own'', hy, hP⟩ := hf
  exact ⟨a, own'', h.bind hy, hP⟩

theorem Meets.acquire (h : Meets (r ::ₘ own) (f ()) P) : Meets own (Pools.acquire r >>= f) P :=
  .bind (.acquire own r) h

theorem Meets.ite {p : Prop} [Decidable p] {c d : Code ρ α} (hc : p → Meets own c P)
    (hd : ¬p → Meets own d P) : Meets own (if p then c else d) P := by
  split
  case isTrue h => exact hc h
  case isFalse h => exact hd h

theorem Sticks.bind {c : Code ρ β} {b : β} {f : β → Code ρ α} (h : Yields own c b own')
    (hr : r ∈ own' → r ∈ own) (hf : Sticks own' (f b) r) : Sticks own (c >>= f) r := by
  intro rest hnot
  rw [StateT.run_bind, h rest]
  refine hf rest fun hx ↦ hnot ?_
  rcases Multiset.mem_add.mp hx with hx | hx
  · exact Multiset.mem_add.mpr (.inl (hr hx))
  · exact Multiset.mem_add.mpr (.inr hx)

theorem Sticks.acquire (hne : r ≠ r') (h : Sticks (r' ::ₘ own) (f ()) r) :
    Sticks own (Pools.acquire r' >>= f) r :=
  .bind (.acquire own r') (fun hr ↦ (Multiset.mem_cons.mp hr).resolve_left hne) h

end Rules

section Release

variable [DecidableEq ρ] {P : α → Multiset ρ → Prop} {r r' : ρ} {f : Unit → Code ρ α}

def use (r : ρ) : Code ρ Unit := fun live ↦ if r ∈ live then some ((), live) else none

def release (r : ρ) : Code ρ Unit := fun live ↦
  if r ∈ live then some ((), live.erase r) else none

theorem Yields.use (hr : r ∈ own) : Yields own (Pools.use r) () own :=
  fun _ ↦ if_pos (Multiset.mem_add.mpr (.inl hr))

theorem Yields.release (hr : own = r ::ₘ own') : Yields own (Pools.release r) () own' := by
  subst hr
  intro rest
  rw [Multiset.cons_add]
  have he : Pools.release r (r ::ₘ (own' + rest)) =
      some ((), (r ::ₘ (own' + rest)).erase r) := if_pos (Multiset.mem_cons_self _ _)
  rwa [Multiset.erase_cons_head] at he

theorem Meets.use (hr : r ∈ own) (h : Meets own (f ()) P) : Meets own (Pools.use r >>= f) P :=
  .bind (.use hr) h

theorem Meets.release (hr : own = r ::ₘ own') (h : Meets own' (f ()) P) :
    Meets own (Pools.release r >>= f) P :=
  .bind (.release hr) h

theorem Sticks.use (hr : r' ∈ own) (h : Sticks own (f ()) r) :
    Sticks own (Pools.use r' >>= f) r :=
  .bind (.use hr) id h

theorem Sticks.release (hr : own = r' ::ₘ own') (h : Sticks own' (f ()) r) :
    Sticks own (Pools.release r' >>= f) r :=
  .bind (.release hr) (fun hx ↦ hr ▸ Multiset.mem_cons_of_mem hx) h

theorem Sticks.at_use (own : Multiset ρ) (f : Unit → Code ρ α) (r : ρ) :
    Sticks own (Pools.use r >>= f) r := by
  intro rest hr
  have he : (Pools.use r).run (own + rest) = none := if_neg hr
  rw [StateT.run_bind, he]
  rfl

theorem Sticks.at_release (own : Multiset ρ) (f : Unit → Code ρ α) (r : ρ) :
    Sticks own (Pools.release r >>= f) r := by
  intro rest hr
  have he : (Pools.release r).run (own + rest) = none := if_neg hr
  rw [StateT.run_bind, he]
  rfl

end Release

/-- What is alive is what the pending requests own, and what the ended ones left behind. -/
def Accounted (owns : τ → Multiset ρ) (pending : Multiset τ) (left live : Multiset ρ) : Prop :=
  live = (pending.map owns).sum + left

variable {owns : τ → Multiset ρ} {pending : Multiset τ} {left live : Multiset ρ} {t : τ}

theorem Accounted.mem_iff (h : Accounted owns pending left live) (r : ρ) :
    r ∈ live ↔ (∃ t ∈ pending, r ∈ owns t) ∨ r ∈ left := by
  rw [h, Multiset.mem_add]
  refine or_congr_left ?_
  exact Multiset.mem_bind

theorem Accounted.begins_all (h : Accounted owns pending left live) (ts : Multiset τ) :
    Accounted owns (ts + pending) left ((ts.map owns).sum + live) := by
  unfold Accounted at *
  rw [Multiset.map_add, Multiset.sum_add, add_assoc, ← h]

theorem Accounted.begins (h : Accounted owns pending left live) (t : τ) :
    Accounted owns (t ::ₘ pending) left (owns t + live) := by
  simpa using h.begins_all {t}

theorem Accounted.leaves (h : Accounted owns pending left live) (more : Multiset ρ) :
    Accounted owns pending (more + left) (more + live) := by
  unfold Accounted at *
  rw [h, add_left_comm]

theorem Accounted.ends [DecidableEq τ] (h : Accounted owns pending left live)
    (ht : t ∈ pending) :
    ∃ rest, live = owns t + rest ∧ Accounted owns (pending.erase t) left rest := by
  unfold Accounted at *
  refine ⟨_, ?_, rfl⟩
  rw [h, ← add_assoc, ← Multiset.sum_cons, ← Multiset.map_cons, Multiset.cons_erase ht]

end Pools
