import FTCache.Library.Words
import Mathlib.Data.List.DropRight
import Mathlib.Data.List.TakeWhile

/-! Numbers and words at the front of a text, as the C library reads them. -/

namespace Scan

open Words

/-- `isspace`. -/
def isSpace (c : Char) : Bool := c = ' ' ∨ 9 ≤ c.toNat ∧ c.toNat ≤ 13

def skipSpace (t : List Char) : List Char := t.dropWhile isSpace

/-- The factor of a sign, and the text behind it. -/
def sign : List Char → ℤ × List Char
  | '+' :: t => (1, t)
  | '-' :: t => (-1, t)
  | t => (1, t)

/-- The decimal number in front, and the text behind it. -/
def number (t : List Char) : Option (ℤ × List Char) :=
  let s := sign (skipSpace t)
  let digits := s.2.takeWhile Char.isDigit
  if digits = [] then none
  else some (s.1 * (Nat.ofDigitChars 10 digits 0 : ℕ), s.2.dropWhile Char.isDigit)

/-- The word in front, and the text behind it. -/
def word (t : List Char) : Option (List Char × List Char) :=
  let s := skipSpace t
  let w := s.takeWhile fun c ↦ !isSpace c
  if w = [] then none else some (w, s.dropWhile fun c ↦ !isSpace c)

/-- Values out of the range of a `long` become its ends. -/
def clampLong (z : ℤ) : ℤ := max (-2 ^ 63) (min z (2 ^ 63 - 1))

/-- `strtol` with base 10; without a number there is no conversion. -/
def strtol (t : List Char) : Option (ℤ × List Char) :=
  (number t).map fun r ↦ (clampLong r.1, r.2)

def atoi (t : List Char) : ℤ := int32 (((strtol t).map Prod.fst).getD 0)

theorem clampLong_of_range {z : ℤ} (h : -2 ^ 63 ≤ z) (h' : z < 2 ^ 63) : clampLong z = z := by
  unfold clampLong
  omega

section Heads

/-- The text does not go on with a character of the class. -/
def Ends (p : Char → Bool) (t : List Char) : Prop := ∀ c ∈ t.head?, p c = false

variable {p : Char → Bool} {d t : List Char}

theorem takeWhile_append_ends (hd : ∀ c ∈ d, p c = true) (ht : Ends p t) :
    (d ++ t).takeWhile p = d := by
  rw [List.takeWhile_append_of_pos hd]
  cases t with
  | nil => simp
  | cons c t => simp [ht c rfl]

theorem dropWhile_of_ends (ht : Ends p t) : t.dropWhile p = t := by
  cases t with
  | nil => rfl
  | cons c t => simp [ht c rfl]

theorem dropWhile_append_ends (hd : ∀ c ∈ d, p c = true) (ht : Ends p t) :
    (d ++ t).dropWhile p = t := by
  rw [List.dropWhile_append_of_pos hd, dropWhile_of_ends ht]

theorem dropWhile_length_lt (h : t.takeWhile p ≠ []) : (t.dropWhile p).length < t.length := by
  have hsum := congrArg List.length (List.takeWhile_append_dropWhile (p := p) (l := t))
  have hpos := List.length_pos_iff.mpr h
  rw [List.length_append] at hsum
  omega

theorem skipSpace_length_le (t : List Char) : (skipSpace t).length ≤ t.length :=
  (List.dropWhile_sublist _).length_le

theorem sign_length_le (t : List Char) : (sign t).2.length ≤ t.length := by
  unfold sign
  split <;> simp

end Heads

section Digits

variable {n : ℕ} {t : List Char}

theorem digit_not_space {c : Char} (h : c.isDigit = true) : isSpace c = false := by
  have hr : 48 ≤ c.toNat := (Char.isDigit_iff_toNat.mp h).1
  have hc : c ≠ ' ' := by
    rintro rfl
    simp at h
  simp [isSpace, hc]
  omega

theorem sign_of_digit {c : Char} (h : c.isDigit = true) : sign (c :: t) = (1, c :: t) := by
  have hplus : c ≠ '+' := by
    rintro rfl
    simp at h
  have hminus : c ≠ '-' := by
    rintro rfl
    simp at h
  simp [sign, hplus, hminus]

theorem toDigits_digit {c : Char} (h : c ∈ Nat.toDigits 10 n) : c.isDigit = true :=
  Nat.isDigit_of_mem_toDigits (by omega) (by omega) h

theorem number_of_sign {s : List Char} {k : ℤ} (ht : Ends Char.isDigit t)
    (hs : sign (skipSpace s) = (k, Nat.toDigits 10 n ++ t)) : number s = some (k * n, t) := by
  have hdigit : ∀ c ∈ Nat.toDigits 10 n, c.isDigit = true := fun c ↦ toDigits_digit
  simp only [number, hs, takeWhile_append_ends hdigit ht, dropWhile_append_ends hdigit ht,
    Nat.toDigits_ne_nil, ↓reduceIte, Nat.ofDigitChars_ten_toDigits]

theorem number_toDigits (n : ℕ) (ht : Ends Char.isDigit t) :
    number (Nat.toDigits 10 n ++ t) = some ((n : ℤ), t) := by
  rw [← one_mul (n : ℤ)]
  apply number_of_sign ht
  obtain ⟨c, ds, hc⟩ := List.exists_cons_of_ne_nil (Nat.toDigits_ne_nil (b := 10) (n := n))
  have hdigit : c.isDigit = true := toDigits_digit (n := n) (by simp [hc])
  rw [hc, List.cons_append, skipSpace, dropWhile_of_ends, sign_of_digit hdigit]
  simpa [Ends] using digit_not_space hdigit

theorem number_neg_toDigits (n : ℕ) (ht : Ends Char.isDigit t) :
    number ('-' :: (Nat.toDigits 10 n ++ t)) = some (-(n : ℤ), t) := by
  rw [← neg_one_mul (n : ℤ)]
  exact number_of_sign ht rfl

end Digits

theorem skipSpace_space {c : Char} {t : List Char} (h : isSpace c = true) :
    skipSpace (c :: t) = skipSpace t := by
  simp [skipSpace, h]

theorem word_space {c : Char} {t : List Char} (h : isSpace c = true) :
    word (c :: t) = word t := by
  simp only [word, skipSpace_space h]

@[simp]
theorem skipSpace_skipSpace (t : List Char) : skipSpace (skipSpace t) = skipSpace t :=
  List.dropWhile_idempotent _ t

@[simp]
theorem number_skipSpace (t : List Char) : number (skipSpace t) = number t := by simp [number]

@[simp]
theorem strtol_skipSpace (t : List Char) : strtol (skipSpace t) = strtol t := by simp [strtol]

theorem strtol_of_number {t rest : List Char} {z : ℤ} (h : number t = some (z, rest))
    (hz : -2 ^ 63 ≤ z) (hz' : z < 2 ^ 63) : strtol t = some (z, rest) := by
  simp [strtol, h, clampLong_of_range hz hz']

theorem number_length_lt {t rest : List Char} {z : ℤ} (h : number t = some (z, rest)) :
    rest.length < t.length := by
  simp only [number] at h
  split at h
  case isTrue => cases h
  case isFalse hd =>
    cases h
    exact (dropWhile_length_lt hd).trans_le ((sign_length_le _).trans (skipSpace_length_le t))

theorem word_length_le {t w rest : List Char} (h : word t = some (w, rest)) :
    rest.length ≤ t.length := by
  simp only [word] at h
  split at h
  case isTrue => cases h
  case isFalse =>
    cases h
    exact (List.dropWhile_sublist _).length_le.trans (skipSpace_length_le t)

theorem word_append {w t : List Char} (hne : w ≠ []) (hw : ∀ c ∈ w, isSpace c = false)
    (ht : Ends (fun c ↦ !isSpace c) t) : word (w ++ t) = some (w, t) := by
  have hskip : skipSpace (w ++ t) = w ++ t := by
    obtain ⟨c, cs, rfl⟩ := List.exists_cons_of_ne_nil hne
    exact dropWhile_of_ends (by simpa [Ends] using hw c (by simp))
  have hplain : ∀ c ∈ w, (!isSpace c) = true := by simpa using hw
  simp only [word, hskip, takeWhile_append_ends hplain ht, dropWhile_append_ends hplain ht, hne,
    ↓reduceIte]

end Scan
