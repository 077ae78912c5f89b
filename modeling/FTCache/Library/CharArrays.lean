import Mathlib.Data.List.TakeWhile

/-! Character arrays of C, of a fixed length, and the strings that are read from them. -/

namespace CharArrays

def nul : Char := Char.ofNat 0

/-- The characters before the first NUL. Where there is none the array holds no string. -/
def text (cells : List Char) : Option (List Char) :=
  if nul ∈ cells then some (cells.takeWhile (· ≠ nul)) else none

/-- `cells[i] = c`, which must not leave the array. -/
def store (cells : List Char) (i : ℕ) (c : Char) : Option (List Char) :=
  if i < cells.length then some (cells.set i c) else none

/-- `strncpy`. It fills up with NUL, and puts none behind a source that is too long. -/
def strncpy (cells src : List Char) (n : ℕ) : Option (List Char) :=
  if n ≤ cells.length then
    some ((src ++ List.replicate (n - src.length) nul).take n ++ cells.drop n)
  else none

variable {cells src rest : List Char} {n : ℕ}

theorem text_append (hsrc : nul ∉ src) : text (src ++ rest) = (text rest).map (src ++ ·) := by
  have hall : ∀ c ∈ src, decide (c ≠ nul) = true := by
    intro c hc
    have hne : c ≠ nul := fun he ↦ hsrc (he ▸ hc)
    simpa using hne
  unfold text
  by_cases hrest : nul ∈ rest
  · rw [if_pos (List.mem_append_right _ hrest), if_pos hrest,
      List.takeWhile_append_of_pos hall]
    rfl
  · rw [if_neg (by simp [hsrc, hrest]), if_neg hrest]
    rfl

theorem text_nul (rest : List Char) : text (nul :: rest) = some [] := by
  simp [text]

theorem text_append_nul (hsrc : nul ∉ src) : text (src ++ nul :: rest) = some src := by
  rw [text_append hsrc, text_nul]
  simp

/-- What lies behind an array has no part in the string it holds. -/
theorem text_extend {s : List Char} (h : text cells = some s) (rest : List Char) :
    text (cells ++ rest) = some s := by
  have hmem : nul ∈ cells := (Option.ite_none_right_eq_some.mp h).1
  obtain ⟨front, back, rfl, hfront⟩ := List.eq_append_cons_of_mem hmem
  rw [text_append_nul hfront] at h
  rw [List.append_assoc, List.cons_append, text_append_nul hfront, h]

theorem strncpy_short (hlen : src.length < n) (hn : n ≤ cells.length) : ∃ rest,
    strncpy cells src n = some (src ++ nul :: rest) ∧
      (src ++ nul :: rest).length = cells.length := by
  obtain ⟨k, hk⟩ := Nat.exists_eq_add_of_lt hlen
  have hpad : n - src.length = k + 1 := by omega
  refine ⟨List.replicate k nul ++ cells.drop n, ?_, ?_⟩
  · rw [strncpy, if_pos hn, hpad, List.replicate_succ, List.take_of_length_le]
    · simp
    · simp
      omega
  · simp
    omega

theorem strncpy_long (hlen : n ≤ src.length) (hn : n ≤ cells.length) :
    strncpy cells src n = some (src.take n ++ cells.drop n) := by
  rw [strncpy, if_pos hn, List.take_append_of_le_length hlen]

/-- `strncpy(cells, src, n); cells[n] = 0` stays in the array and leaves a string in it. -/
theorem strncpy_store (cells : List Char) (n : ℕ) (hsrc : nul ∉ src) (hn : n < cells.length) : ∃ b,
    (strncpy cells src n).bind (store · n nul) = some b ∧ b.length = cells.length ∧
      text b = some (src.take n) := by
  by_cases hlen : src.length < n
  · obtain ⟨rest, hcopy, hall⟩ := strncpy_short hlen hn.le
    have hset : (src ++ nul :: rest).set n nul =
        src ++ nul :: rest.set (n - src.length - 1) nul := by
      obtain ⟨k, rfl⟩ := Nat.exists_eq_add_of_lt hlen
      rw [List.set_append_right _ _ (by omega)]
      have hk : src.length + k + 1 - src.length = k + 1 := by omega
      rw [hk]
      rfl
    refine ⟨src ++ nul :: rest.set (n - src.length - 1) nul, ?_, ?_, ?_⟩
    · rw [hcopy, Option.bind_some, store, if_pos (by rw [hall]; exact hn), hset]
    · simpa using hall
    · rw [text_append_nul hsrc, List.take_of_length_le hlen.le]
  · have htake : (src.take n).length = n := by
      rw [List.length_take]
      omega
    obtain ⟨c, rest, hdrop⟩ := List.exists_cons_of_length_pos
      (show 0 < (cells.drop n).length by rw [List.length_drop]; omega)
    have hset : (src.take n ++ cells.drop n).set n nul = src.take n ++ nul :: rest := by
      rw [List.set_append_right _ _ htake.le, htake, Nat.sub_self, hdrop]
      rfl
    have hlength : (src.take n ++ nul :: rest).length = cells.length := by
      have hd := congrArg List.length hdrop
      simp only [List.length_append, List.length_cons, List.length_drop] at hd ⊢
      omega
    refine ⟨src.take n ++ nul :: rest, ?_, hlength, ?_⟩
    · rw [strncpy_long (by omega) hn.le, Option.bind_some, store, hset, if_pos]
      rw [List.length_append, List.length_drop]
      omega
    · exact text_append_nul fun hmem ↦ hsrc (List.mem_of_mem_take hmem)

end CharArrays
