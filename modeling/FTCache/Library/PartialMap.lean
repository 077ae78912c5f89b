import Mathlib.Logic.Function.Basic

/-- A finite map of a C++ program, seen through what `find` answers. -/
abbrev PMap (κ β : Type*) := κ → Option β

namespace PMap

variable {κ β : Type*} [DecidableEq κ]

def insert (m : PMap κ β) (k : κ) (v : β) : PMap κ β := Function.update m k (some v)

def erase (m : PMap κ β) (k : κ) : PMap κ β := Function.update m k none

/-- The value `m[k]` denotes; a missing key reads as the default value. -/
def index [Inhabited β] (m : PMap κ β) (k : κ) : β := (m k).getD default

/-- The map after `m[k]` has been evaluated: a missing key is now present. -/
def touch [Inhabited β] (m : PMap κ β) (k : κ) : PMap κ β := m.insert k (m.index k)

@[simp, grind =]
theorem insert_apply (m : PMap κ β) (k : κ) (v : β) (j : κ) :
    m.insert k v j = if j = k then some v else m j := by
  simp [insert, Function.update_apply]

@[simp, grind =]
theorem erase_apply (m : PMap κ β) (k j : κ) :
    m.erase k j = if j = k then none else m j := by
  simp [erase, Function.update_apply]

omit [DecidableEq κ] in
theorem index_of_some [Inhabited β] {m : PMap κ β} {k : κ} {v : β} (h : m k = some v) :
    m.index k = v := by
  simp [index, h]

@[simp, grind =]
theorem touch_apply [Inhabited β] (m : PMap κ β) (k j : κ) :
    m.touch k j = if j = k then some (m.index k) else m j := by
  simp [touch]

theorem touch_of_some [Inhabited β] {m : PMap κ β} {k : κ} {v : β} (h : m k = some v) :
    m.touch k = m := by
  funext j
  by_cases hj : j = k
  · subst j
    simp [index_of_some h, h]
  · simp [hj]

/-- `operator[]` never changes an entry that exists. -/
theorem touch_kept [Inhabited β] {m : PMap κ β} {j : κ} {v : β} (h : m j = some v) (k : κ) :
    m.touch k j = some v := by
  by_cases hj : j = k
  · subst j
    simp [index_of_some h]
  · simp [hj, h]

theorem erase_touch [Inhabited β] (m : PMap κ β) (k : κ) : (m.touch k).erase k = m.erase k := by
  funext j
  by_cases hj : j = k <;> simp [hj]

end PMap
