import Mathlib.Algebra.BigOperators.Group.List.Basic
import Mathlib.Algebra.GroupWithZero.Nat
import Mathlib.Data.List.Basic

/-! Runs of a system whose steps are a partial function of a state and a label. -/

namespace Runs

variable {σ ℓ : Type*} (step : σ → ℓ → Option σ) (ok : σ → ℓ → Prop)

/-- The state a list of labels leads to. -/
def exec (a : σ) : List ℓ → Option σ
  | [] => some a
  | l :: ls => (step a l).bind fun b ↦ exec b ls

/-- Every step of the run meets `ok` in the state it is taken from. -/
def Along (a : σ) : List ℓ → Prop
  | [] => True
  | l :: ls => ok a l ∧ ∀ b ∈ step a l, Along b ls

instance decidableAlong [∀ s l, Decidable (ok s l)] (a : σ) :
    (ls : List ℓ) → Decidable (Along step ok a ls)
  | [] => isTrue trivial
  | l :: ls =>
    have : ∀ b, Decidable (Along step ok b ls) := fun b ↦ decidableAlong b ls
    inferInstanceAs (Decidable (ok a l ∧ ∀ b ∈ step a l, Along step ok b ls))

/-- The states reached by runs whose steps all meet `ok`. -/
inductive Reach (a : σ) : σ → Prop
  | refl : Reach a a
  | tail {b c : σ} {l : ℓ} : Reach a b → ok b l → step b l = some c → Reach a c

variable {step ok}

/-- What one step preserves, every run preserves. -/
theorem Reach.invariant {a b : σ} (h : Reach step ok a b) (I : σ → Prop) (h₀ : I a)
    (hs : ∀ b l c, I b → ok b l → step b l = some c → I c) : I b := by
  induction h with
  | refl => exact h₀
  | tail _ hl hc ih => exact hs _ _ _ ih hl hc

theorem Reach.mono {ok' : σ → ℓ → Prop} {a b : σ} (h : Reach step ok a b)
    (hok : ∀ s l, ok s l → ok' s l) : Reach step ok' a b := by
  induction h with
  | refl => exact .refl
  | tail _ hl hc ih => exact ih.tail (hok _ _ hl) hc

theorem Reach.trans {a b c : σ} (h : Reach step ok a b) (h' : Reach step ok b c) :
    Reach step ok a c := by
  induction h' with
  | refl => exact h
  | tail _ hl hc ih => exact ih.tail hl hc

/-- Where each step looks from outside like a step of another system or like none, so do runs. -/
theorem Reach.refines {τ κ : Type*} {stepB : τ → κ → Option τ} {f : σ → τ} {a b : σ}
    (h : Reach step ok a b)
    (hs : ∀ b l c, Reach step ok a b → step b l = some c →
      f c = f b ∨ ∃ k, stepB (f b) k = some (f c)) :
    Reach stepB (fun _ _ ↦ True) (f a) (f b) := by
  induction h with
  | refl => exact .refl
  | tail hb _ hc ih =>
    obtain he | ⟨k, hk⟩ := hs _ _ _ hb hc
    · rwa [he]
    · exact ih.tail trivial hk

/-- Where each step is matched by one step of another system or by none, and a relation between
the states is kept, so are runs. -/
theorem Reach.simulates {τ κ : Type*} {stepB : τ → κ → Option τ} {R : σ → τ → Prop} {a b : σ}
    {x : τ} (h : Reach step ok a b) (h₀ : R a x)
    (hs : ∀ b l c y, Reach step ok a b → R b y → step b l = some c →
      R c y ∨ ∃ k z, stepB y k = some z ∧ R c z) :
    ∃ y, Reach stepB (fun _ _ ↦ True) x y ∧ R b y := by
  induction h with
  | refl => exact ⟨x, .refl, h₀⟩
  | tail hb _ hc ih =>
    obtain ⟨y, hy, hR⟩ := ih
    obtain hR | ⟨k, z, hk, hR⟩ := hs _ _ _ y hb hR hc
    · exact ⟨y, hy, hR⟩
    · exact ⟨z, hy.tail trivial hk, hR⟩

theorem Reach.of_exec {ls : List ℓ} {a b : σ} (h : exec step a ls = some b)
    (hok : Along step ok a ls) : Reach step ok a b := by
  induction ls generalizing a with
  | nil =>
    cases h
    exact .refl
  | cons l ls ih =>
    cases hs : step a l with
    | none => simp [exec, hs] at h
    | some a' =>
      have h' : exec step a' ls = some b := by simpa [exec, hs] using h
      exact (Reach.refl.tail hok.1 hs).trans (ih h' (hok.2 a' hs))

/-- A concrete run that ends in a state with `P`. -/
theorem Reach.exists_of_exec {P : σ → Prop} [DecidablePred P] {a : σ} (ls : List ℓ)
    (h : (exec step a ls).any P = true) (hok : Along step ok a ls) :
    ∃ b, Reach step ok a b ∧ P b := by
  obtain ⟨b, hb, hP⟩ := (Option.any_eq_true _ _).mp h
  exact ⟨b, .of_exec hb hok, by simpa using hP⟩

/-- Every step is paid for out of a potential: a run is no longer than what was there
at its start and what its labels pay in. -/
theorem exec_length_le {I : σ → Prop} {owed : σ → ℕ} {pay : ℓ → ℕ}
    (hs : ∀ a l b, I a → step a l = some b → I b ∧ owed b + 1 ≤ owed a + pay l) {ls : List ℓ}
    {a b : σ} (h₀ : I a) (h : exec step a ls = some b) :
    ls.length + owed b ≤ owed a + (ls.map pay).sum := by
  induction ls generalizing a with
  | nil =>
    cases h
    simp
  | cons l ls ih =>
    obtain ⟨c, hc, h⟩ := Option.bind_eq_some_iff.mp h
    obtain ⟨hi, hpaid⟩ := hs a l c h₀ hc
    have hrest := ih hi h
    simp only [List.length_cons, List.map_cons, List.sum_cons]
    omega

/-- A condition that follows from another under an invariant that the steps meeting it keep. -/
theorem Along.imp {ok' : σ → ℓ → Prop} {I : σ → Prop} (hok : ∀ s l, I s → ok s l → ok' s l)
    (hs : ∀ a l b, I a → ok a l → step a l = some b → I b) {a : σ} {ls : List ℓ} (h₀ : I a)
    (h : Along step ok a ls) : Along step ok' a ls := by
  induction ls generalizing a with
  | nil => trivial
  | cons l ls ih =>
    exact ⟨hok a l h₀ h.1, fun b hb ↦ ih (hs a l b h₀ h.1 hb) (h.2 b hb)⟩

theorem Along.mono {ok' : σ → ℓ → Prop} (hok : ∀ s l, ok s l → ok' s l) {a : σ} {ls : List ℓ}
    (h : Along step ok a ls) : Along step ok' a ls :=
  h.imp (I := fun _ ↦ True) (fun s l _ ↦ hok s l) (fun _ _ _ _ _ _ ↦ trivial) trivial

theorem Along.of_append {ls ls' : List ℓ} {a b : σ} (h : Along step ok a (ls ++ ls'))
    (hb : exec step a ls = some b) : Along step ok b ls' := by
  induction ls generalizing a with
  | nil =>
    cases hb
    exact h
  | cons k ls ih =>
    obtain ⟨c, hc, hb⟩ := Option.bind_eq_some_iff.mp hb
    exact ih (h.2 c hc) hb

theorem Along.last {ls : List ℓ} {l : ℓ} {a b : σ} (h : Along step ok a (ls ++ [l]))
    (hb : exec step a ls = some b) : ok b l :=
  (h.of_append hb).1

/-- A condition on the labels alone is met along a completed run if every label meets it. -/
theorem Along.iff_forall {P : ℓ → Prop} {ls : List ℓ} {a b : σ} (h : exec step a ls = some b) :
    Along step (fun _ l ↦ P l) a ls ↔ ∀ l ∈ ls, P l := by
  induction ls generalizing a with
  | nil => simp [Along]
  | cons l ls ih =>
    obtain ⟨c, hc, h⟩ := Option.bind_eq_some_iff.mp h
    simp only [Along, hc, Option.mem_some_iff, forall_eq', List.forall_mem_cons, ih h]

/-- When each step keeps an invariant exactly if it meets `ok`, a completed run
keeps it throughout exactly if all its steps meet `ok`. -/
theorem Along.iff_of_step {I : σ → Prop}
    (hs : ∀ a l b, I a → step a l = some b → (I b ↔ ok a l)) {ls : List ℓ} {a b : σ} (h₀ : I a)
    (h : exec step a ls = some b) :
    Along step (fun a l ↦ ∀ c ∈ step a l, I c) a ls ↔ Along step ok a ls := by
  induction ls generalizing a with
  | nil => exact Iff.rfl
  | cons l ls ih =>
    obtain ⟨c, hc, h⟩ := Option.bind_eq_some_iff.mp h
    have hstep := hs a l c h₀ hc
    simp only [Along, hc, Option.mem_some_iff, forall_eq']
    constructor
    · intro hx
      obtain ⟨hi, hrest⟩ := hx
      exact ⟨hstep.mp hi, (ih hi h).mp hrest⟩
    · intro hx
      obtain ⟨hl, hrest⟩ := hx
      exact ⟨hstep.mpr hl, (ih (hstep.mpr hl) h).mpr hrest⟩

/-- When each step finds two conditions equivalent under an invariant that they keep,
a completed run meets the one throughout exactly if it meets the other. -/
theorem Along.congr_of_step {ok' : σ → ℓ → Prop} {I : σ → Prop}
    (hs : ∀ a l b, I a → step a l = some b → (ok a l ↔ ok' a l) ∧ (ok' a l → I b)) {ls : List ℓ}
    {a b : σ} (h₀ : I a) (h : exec step a ls = some b) :
    Along step ok a ls ↔ Along step ok' a ls := by
  induction ls generalizing a with
  | nil => exact Iff.rfl
  | cons l ls ih =>
    obtain ⟨c, hc, h⟩ := Option.bind_eq_some_iff.mp h
    obtain ⟨hok, hi⟩ := hs a l c h₀ hc
    simp only [Along, hc, Option.mem_some_iff, forall_eq', hok]
    exact and_congr_right fun hl ↦ ih (hi hl) h

section History

variable {τ : Type*} {stepB : τ → ℓ → Option τ} {f : σ → τ}

theorem Along.map_iff (hf : ∀ a l, (step a l).map f = stepB (f a) l) {P : τ → ℓ → Prop} {a : σ}
    {ls : List ℓ} : Along step (fun a l ↦ P (f a) l) a ls ↔ Along stepB P (f a) ls := by
  induction ls generalizing a with
  | nil => exact Iff.rfl
  | cons l ls ih =>
    rw [Along, Along, ← hf]
    cases step a l with
    | none => simp
    | some b => simp [ih]

end History

/-- Two conditions that agree under an invariant of the steps are met by the same runs. -/
theorem Along.congr {ok' : σ → ℓ → Prop} {I : σ → Prop}
    (hok : ∀ a l, I a → (ok a l ↔ ok' a l)) (hs : ∀ a l b, I a → step a l = some b → I b)
    {ls : List ℓ} {a : σ} (h₀ : I a) : Along step ok a ls ↔ Along step ok' a ls :=
  ⟨Along.imp (fun a l ha ↦ (hok a l ha).mp) (fun a l b ha _ ↦ hs a l b ha) h₀,
    Along.imp (fun a l ha ↦ (hok a l ha).mpr) (fun a l b ha _ ↦ hs a l b ha) h₀⟩

end Runs
