import Mathlib.Data.Int.Notation
import Mathlib.Data.List.Range
import Mathlib.Data.List.GetD
import Mathlib.Tactic.NormNum

namespace Words

/-- Conversion to a signed 32-bit integer. -/
@[irreducible]
def int32 (x : ℤ) : ℤ := (x + 2 ^ 31) % 2 ^ 32 - 2 ^ 31

/-- Conversion of a signed integer to an unsigned 64-bit size. -/
@[irreducible]
def size64 (x : ℤ) : ℕ := (x % 2 ^ 64).toNat

/-- Conversion of a signed integer to an unsigned 32-bit one. -/
@[irreducible]
def uint32 (x : ℤ) : ℕ := (x % 2 ^ 32).toNat

theorem int32_of_range {x : ℤ} (h : -2 ^ 31 ≤ x) (h' : x < 2 ^ 31) : int32 x = x := by
  unfold int32
  omega

theorem int32_lower (x : ℤ) : -2 ^ 31 ≤ int32 x := by
  unfold int32
  omega

theorem int32_upper (x : ℤ) : int32 x < 2 ^ 31 := by
  unfold int32
  omega

theorem size64_of_nonneg {x : ℤ} (h : 0 ≤ x) (h' : x < 2 ^ 64) : (size64 x : ℤ) = x := by
  unfold size64
  omega

theorem int32_natCast {n : ℕ} (h : n < 2 ^ 31) : int32 n = n :=
  int32_of_range (by omega) (by omega)

theorem size64_natCast {n : ℕ} (h : n < 2 ^ 64) : size64 n = n := by
  have hn := size64_of_nonneg (x := n) (by omega) (by omega)
  omega

theorem size64_of_neg {x : ℤ} (h : x < 0) (h' : -2 ^ 63 ≤ x) : 2 ^ 63 ≤ size64 x := by
  unfold size64
  omega

theorem size64_int32_le {n : ℕ} (h : 0 ≤ int32 n) : size64 (int32 n) ≤ size64 n := by
  unfold int32 size64 at *
  omega

/-- What remains of a size in 32 bits is no larger again, unless its sign bit is set and
the bits above are not. -/
theorem size64_int32_le_iff {n : ℕ} (h : n < 2 ^ 64) :
    size64 (int32 n) ≤ n ↔ 0 ≤ int32 n ∨ 2 ^ 64 - 2 ^ 31 ≤ n := by
  unfold int32 size64
  omega

theorem int32_top {n : ℕ} (h : 2 ^ 64 - 2 ^ 31 ≤ n) (h' : n < 2 ^ 64) : int32 n < 0 := by
  unfold int32
  omega

theorem int32_uint32 (x : ℤ) : int32 (uint32 x) = int32 x := by
  unfold int32 uint32
  omega

theorem uint32_of_nonneg {x : ℤ} (h : 0 ≤ x) (h' : x < 2 ^ 32) : uint32 x = x.toNat := by
  unfold uint32
  omega

/-- A remainder by a positive `int` is a valid index of as many elements. -/
theorem int32_mod_range (h : ℕ) {n : ℕ} (hn : 0 < n) (hn' : n < 2 ^ 31) :
    0 ≤ int32 (h % n : ℕ) ∧ (int32 (h % n : ℕ)).toNat < n := by
  have hlt := Nat.mod_lt h hn
  rw [int32_natCast (by omega)]
  omega

theorem size64_int32_lt {n : ℕ} : size64 (int32 n) < 2 ^ 63 ↔ 0 ≤ int32 n := by
  unfold int32 size64
  omega

/-- The eight bytes of a signed 64-bit integer, the lowest first. -/
def bytes64 (x : ℤ) : List UInt8 := (List.range 8).map fun i ↦ .ofNat (size64 x / 256 ^ i)

/-- The integer that eight bytes stand for. -/
def int64 (bs : List UInt8) : ℤ :=
  let n : ℕ := bs.foldr (fun b n ↦ b.toNat + 256 * n) 0
  if n < 2 ^ 63 then n else n - 2 ^ 64

@[simp]
theorem bytes64_length (x : ℤ) : (bytes64 x).length = 8 := by simp [bytes64]

theorem int64_bytes64 {x : ℤ} (h : -2 ^ 63 ≤ x) (h' : x < 2 ^ 63) : int64 (bytes64 x) = x := by
  have hsize : size64 x < 2 ^ 64 ∧ (size64 x : ℤ) = if 0 ≤ x then x else x + 2 ^ 64 := by
    unfold size64
    omega
  have hsum : (bytes64 x).foldr (fun b n ↦ b.toNat + 256 * n) 0 = size64 x := by
    simp [bytes64, List.range_succ]
    omega
  simp only [int64, hsum]
  split
  · omega
  · omega

end Words
