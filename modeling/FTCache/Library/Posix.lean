import FTCache.Library.PartialMap
import Mathlib.Algebra.Group.Int.Defs
import Mathlib.Algebra.Ring.Nat
import Mathlib.Data.List.Basic

namespace Posix

variable {ι β : Type*}

/-- An open file description: the file it refers to and its offset. -/
structure Description (ι : Type*) where
  file : ι
  pos : ℕ
  deriving DecidableEq

abbrev Table (ι : Type*) := PMap ℤ (Description ι)

/-- The bytes a transfer of at most `n` bytes finds at offset `pos`. -/
def slice (content : List β) (pos n : ℕ) : List β := (content.drop pos).take n

theorem slice_length_le (content : List β) (pos n : ℕ) : (slice content pos n).length ≤ n := by
  simp only [slice, List.length_take]
  omega
variable (files : ι → Option (List β)) (t : Table ι)

def content (fd : ℤ) : Option (List β) := (t fd).bind fun d ↦ files d.file

/-- `read`: the bytes, or `none` when the call fails, and the table afterwards. -/
def read (fd : ℤ) (n : ℕ) : Option (List β) × Table ι :=
  match t fd with
  | none => (none, t)
  | some d =>
    match files d.file with
    | none => (none, t)
    | some b => (some (slice b d.pos n),
        t.insert fd ⟨d.file, d.pos + (slice b d.pos n).length⟩)

/-- The largest number of buffers that `readv` takes. -/
def iovMax : ℕ := 1024

def readv (fd : ℤ) (sizes : List ℕ) : Option (List β) × Table ι :=
  if sizes.length ≤ iovMax then read files t fd sizes.sum else (none, t)

def pread (fd : ℤ) (n : ℕ) (offset : ℤ) : Option (List β) :=
  if offset < 0 then none
  else (content files t fd).map fun b ↦ slice b offset.toNat n

/-- The offset `lseek` moves to, for the three standard values of `whence`. -/
def seekTarget (size pos : ℕ) (offset whence : ℤ) : Option ℕ :=
  let target (base : ℤ) : Option ℕ :=
    if 0 ≤ base + offset ∧ base + offset < 2 ^ 63 then some (base + offset).toNat else none
  if whence = 0 then target 0
  else if whence = 1 then target pos
  else if whence = 2 then target size
  else none

/-- The offset from which `whence` counts. -/
def seekBase (size pos : ℕ) (whence : ℤ) : Option ℤ :=
  if whence = 0 then some 0 else if whence = 1 then some pos else if whence = 2 then some size
  else none

/-- The offsets a description can have. -/
def Legal (x : ℤ) : Prop := 0 ≤ x ∧ x < 2 ^ 63

instance (x : ℤ) : Decidable (Legal x) := inferInstanceAs (Decidable (_ ∧ _))

def lseek (fd offset whence : ℤ) : Option ℕ × Table ι :=
  match t fd with
  | none => (none, t)
  | some d =>
    match files d.file with
    | none => (none, t)
    | some b =>
      match seekTarget b.length d.pos offset whence with
      | none => (none, t)
      | some p => (some p, t.insert fd ⟨d.file, p⟩)

/-- Whether the kernel can answer an `open` of `file` with the number `fd`. -/
def Grants (file : ι) (fd : ℤ) : Prop := (files file).isSome ∧ 0 ≤ fd ∧ t fd = none

instance (file : ι) (fd : ℤ) : Decidable (Grants files t file fd) :=
  decidable_of_iff ((files file).isSome = true ∧ 0 ≤ fd ∧ (t fd).isNone = true)
    (by simp [Grants])

def transferred : Option (List β) → ℤ
  | none => -1
  | some bs => bs.length

def offsetReturned : Option ℕ → ℤ
  | none => -1
  | some p => p

@[simp] theorem transferred_none : transferred (none : Option (List β)) = -1 := rfl
@[simp] theorem transferred_some (bs : List β) : transferred (some bs) = bs.length := rfl
@[simp] theorem offsetReturned_none : offsetReturned none = -1 := rfl
@[simp] theorem offsetReturned_some (p : ℕ) : offsetReturned (some p) = p := rfl

variable {files t}

theorem read_of_open {fd : ℤ} {d : Description ι} {b : List β} (h : t fd = some d)
    (hb : files d.file = some b) (n : ℕ) :
    read files t fd n = (some (slice b d.pos n),
      t.insert fd ⟨d.file, d.pos + (slice b d.pos n).length⟩) := by
  simp [read, h, hb]

theorem read_closed {fd : ℤ} (h : t fd = none) (n : ℕ) : read files t fd n = (none, t) := by
  simp [read, h]

theorem pread_of_open {fd : ℤ} {d : Description ι} {b : List β} (h : t fd = some d)
    (hb : files d.file = some b) (n : ℕ) {offset : ℤ} (ho : 0 ≤ offset) :
    pread files t fd n offset = some (slice b offset.toNat n) := by
  simp [pread, content, h, hb, Int.not_lt.mpr ho]

theorem lseek_of_open {fd : ℤ} {d : Description ι} {b : List β} (h : t fd = some d)
    (hb : files d.file = some b) (offset whence : ℤ) :
    (lseek files t fd offset whence).1 = seekTarget b.length d.pos offset whence ∧
      (lseek files t fd offset whence).2 fd =
        some ⟨d.file, (seekTarget b.length d.pos offset whence).getD d.pos⟩ := by
  simp only [lseek, h, hb]
  split <;> simp [*]

theorem seekTarget_eq_bind (size pos : ℕ) (offset whence : ℤ) :
    seekTarget size pos offset whence = (seekBase size pos whence).bind fun base ↦
      if Legal (base + offset) then some (base + offset).toNat else none := by
  unfold seekTarget seekBase Legal
  split
  · rfl
  · split
    · rfl
    · split <;> rfl

/-- Only a seek from the current position depends on it. -/
theorem seekTarget_congr {size pos pos' : ℕ} {offset whence : ℤ} (h : whence = 1 → pos = pos') :
    seekTarget size pos offset whence = seekTarget size pos' offset whence := by
  by_cases hw : whence = 1
  · rw [h hw]
  · simp [seekTarget, hw]

theorem offsetReturned_ge (r : Option ℕ) : -1 ≤ offsetReturned r := by
  cases r <;> simp

theorem read_congr (files : ι → Option (List β)) {t t' : Table ι} {fd : ℤ}
    (h : t fd = t' fd) (n : ℕ) :
    (read files t fd n).1 = (read files t' fd n).1 ∧
      (read files t fd n).2 fd = (read files t' fd n).2 fd := by
  unfold read
  rw [← h]
  split
  · exact ⟨rfl, h⟩
  · split
    · exact ⟨rfl, h⟩
    · simp

theorem pread_congr (files : ι → Option (List β)) {t t' : Table ι} {fd : ℤ}
    (h : t fd = t' fd) (n : ℕ) (offset : ℤ) :
    pread files t fd n offset = pread files t' fd n offset := by
  simp only [pread, content, h]

theorem lseek_congr (files : ι → Option (List β)) {t t' : Table ι} {fd : ℤ}
    (h : t fd = t' fd) (offset whence : ℤ) :
    (lseek files t fd offset whence).1 = (lseek files t' fd offset whence).1 ∧
      (lseek files t fd offset whence).2 fd = (lseek files t' fd offset whence).2 fd := by
  unfold lseek
  rw [← h]
  split
  · exact ⟨rfl, h⟩
  · split
    · exact ⟨rfl, h⟩
    · split
      · exact ⟨rfl, h⟩
      · simp

theorem read_length_le {fd : ℤ} {n : ℕ} {bs : List β} (h : (read files t fd n).1 = some bs) :
    bs.length ≤ n := by
  unfold read at h
  split at h
  · cases h
  · split at h
    · cases h
    · cases h
      exact slice_length_le ..

theorem read_frame (fd : ℤ) (n : ℕ) {j : ℤ} (hj : j ≠ fd) : (read files t fd n).2 j = t j := by
  unfold read
  split
  · rfl
  · split
    · rfl
    · simp [hj]

theorem lseek_frame (fd offset whence : ℤ) {j : ℤ} (hj : j ≠ fd) :
    (lseek files t fd offset whence).2 j = t j := by
  unfold lseek
  split
  · rfl
  · split
    · rfl
    · split
      · rfl
      · simp [hj]

theorem read_file (fd : ℤ) (n : ℕ) (j : ℤ) :
    ((read files t fd n).2 j).map Description.file = (t j).map Description.file := by
  by_cases hj : j = fd
  · subst j
    unfold read
    split
    · rfl
    · split <;> simp [*]
  · rw [read_frame fd n hj]

theorem lseek_file (fd offset whence j : ℤ) :
    ((lseek files t fd offset whence).2 j).map Description.file =
      (t j).map Description.file := by
  by_cases hj : j = fd
  · subst j
    unfold lseek
    split
    · rfl
    · split
      · rfl
      · split <;> simp [*]
  · rw [lseek_frame fd offset whence hj]

theorem read_failed {fd : ℤ} {n : ℕ} (h : (read files t fd n).1 = none) :
    (read files t fd n).2 = t := by
  unfold read at *
  split
  · rfl
  · split
    · rfl
    · simp_all

end Posix
