import Mathlib.Data.Finset.Card

/-! Following a partial successor from an element on, up to one where the walk stops. -/

namespace Chains

variable {α : Type*} (stop : α → Prop) (next : α → Option α)

/-- The elements that a finite walk from `a` passes. It ends where it has to stop or where
there is no successor. -/
inductive Chain : α → List α → Prop
  | stop {a : α} (hs : stop a) : Chain a []
  | last {a : α} (hs : ¬stop a) (hn : next a = none) : Chain a [a]
  | more {a b : α} {l : List α} (hs : ¬stop a) (hn : next a = some b) (h : Chain b l) :
      Chain a (a :: l)

/-- The walk from `a` is finite. -/
def Ends (a : α) : Prop := ∃ l, Chain stop next a l

variable {stop next} {a b : α} {l l' : List α}

theorem Ends.of_next (hn : next a = none) : Ends stop next a := by
  by_cases hs : stop a
  · exact ⟨[], .stop hs⟩
  · exact ⟨[a], .last hs hn⟩

theorem Ends.of_some (hn : next a = some b) (h : Ends stop next b) : Ends stop next a := by
  by_cases hs : stop a
  · exact ⟨[], .stop hs⟩
  · obtain ⟨l, hl⟩ := h
    exact ⟨a :: l, .more hs hn hl⟩

theorem Chain.unique (h : Chain stop next a l) (h' : Chain stop next a l') : l = l' := by
  induction h generalizing l' with
  | stop hs =>
    cases h' with
    | stop => rfl
    | last hs' => exact absurd hs hs'
    | more hs' => exact absurd hs hs'
  | last hs hn =>
    cases h' with
    | stop hs' => exact absurd hs' hs
    | last => rfl
    | more _ hn' => cases hn.symm.trans hn'
  | more hs hn _ ih =>
    cases h' with
    | stop hs' => exact absurd hs' hs
    | last _ hn' => cases hn.symm.trans hn'
    | more _ hn' hl' =>
      cases hn.symm.trans hn'
      rw [ih hl']

/-- From each element it passes, the walk goes on with a part of the rest. -/
theorem Chain.of_mem (h : Chain stop next a l) (hb : b ∈ l) :
    ∃ m, Chain stop next b m ∧ m.length ≤ l.length := by
  induction h with
  | stop => cases hb
  | @last a hs hn =>
    obtain rfl : b = a := by simpa using hb
    exact ⟨[b], .last hs hn, le_rfl⟩
  | @more a c l hs hn hl ih =>
    rcases List.mem_cons.mp hb with rfl | hb
    · exact ⟨b :: l, .more hs hn hl, le_rfl⟩
    · obtain ⟨m, hm, hle⟩ := ih hb
      exact ⟨m, hm, hle.trans (Nat.le_succ _)⟩

theorem Chain.ends_of_mem (h : Chain stop next a l) (hb : b ∈ l) : Ends stop next b := by
  obtain ⟨m, hm, -⟩ := h.of_mem hb
  exact ⟨m, hm⟩

/-- A finite walk never comes back. -/
theorem Chain.nodup (h : Chain stop next a l) : l.Nodup := by
  induction h with
  | stop => exact .nil
  | last => simp
  | @more a b l hs hn hl ih =>
    refine List.nodup_cons.mpr ⟨fun ha ↦ ?_, ih⟩
    obtain ⟨m, hm, hle⟩ := hl.of_mem ha
    have hsame := hm.unique (.more hs hn hl)
    rw [hsame, List.length_cons] at hle
    omega

theorem Chain.length_le (h : Chain stop next a l) {s : Finset α} (hs : ∀ b ∈ l, b ∈ s) :
    l.length ≤ s.card := by
  classical
  rw [← List.toFinset_card_of_nodup h.nodup]
  apply Finset.card_le_card
  intro b hb
  exact hs b (List.mem_toFinset.mp hb)

section Stops

variable {stop' : α → Prop}

/-- A walk that may stop earlier is no longer. -/
theorem Chain.mono (h : Chain stop next a l) (hs : ∀ b, stop b → stop' b) :
    ∃ m, Chain stop' next a m ∧ m.length ≤ l.length := by
  induction h with
  | stop h => exact ⟨[], .stop (hs _ h), le_rfl⟩
  | @last a h hn =>
    by_cases h' : stop' a
    · exact ⟨[], .stop h', Nat.zero_le _⟩
    · exact ⟨[a], .last h' hn, le_rfl⟩
  | @more a b l h hn _ ih =>
    by_cases h' : stop' a
    · exact ⟨[], .stop h', Nat.zero_le _⟩
    · obtain ⟨m, hm, hle⟩ := ih
      exact ⟨a :: m, .more h' hn hm, Nat.succ_le_succ hle⟩

/-- Stops at elements from which the walk ends anyway change nothing. -/
theorem Ends.of_stops (h : Ends stop' next a) (hs : ∀ b, stop' b → Ends stop next b) :
    Ends stop next a := by
  obtain ⟨l, hl⟩ := h
  induction hl with
  | stop h => exact hs _ h
  | last _ hn => exact .of_next hn
  | more _ hn _ ih => exact .of_some hn ih

end Stops

/-- A walk that never leaves a set without stops is not finite. -/
theorem not_ends_of_closed {P : α → Prop} (hP : ∀ a, P a → ¬stop a ∧ ∃ b, next a = some b ∧ P b)
    (ha : P a) : ¬Ends stop next a := by
  rintro ⟨l, hl⟩
  induction hl with
  | stop hs => exact (hP _ ha).1 hs
  | last _ hn =>
    obtain ⟨b, hb, -⟩ := (hP _ ha).2
    cases hn.symm.trans hb
  | more _ hn _ ih =>
    obtain ⟨b, hb, hPb⟩ := (hP _ ha).2
    cases hn.symm.trans hb
    exact ih hPb

end Chains
