import Mathlib.Data.List.Perm.Basic
import Mathlib.Data.Prod.Lex
import Mathlib.Data.Set.Insert
import Mathlib.Tactic.Order

/-! Maps in the order of their keys, and the first key met on a turn round them. -/

namespace Turn

variable {κ : Type*} [LinearOrder κ]

/-- The keys in the order in which a search that starts at `k` and wraps around meets them. -/
def turn (k p : κ) : Bool ×ₗ κ := toLex (decide (p < k), p)

/-- The first element of `S` met from `k` on. -/
def Nearest (k : κ) (S : Set κ) (p : κ) : Prop := p ∈ S ∧ ∀ q ∈ S, turn k p ≤ turn k q

theorem turn_injective (k : κ) : Function.Injective (turn k) := by
  intro p q h
  exact (Prod.ext_iff.mp (toLex.injective h)).2

theorem turn_le_of_le {k p q : κ} (hp : k ≤ p) (hq : k ≤ q → p ≤ q) : turn k p ≤ turn k q := by
  rw [turn, turn, Prod.Lex.toLex_le_toLex, decide_eq_false (not_lt.mpr hp)]
  rcases lt_or_ge q k with h | h
  · exact .inl (by simp [h])
  · exact .inr ⟨by simp [h], hq h⟩

theorem turn_le_of_lt {k p q : κ} (hp : p < k) (hq : q < k) (h : p ≤ q) :
    turn k p ≤ turn k q := by
  rw [turn, turn, Prod.Lex.toLex_le_toLex]
  exact .inr ⟨by simp [hp, hq], h⟩

theorem Nearest.unique {k p q : κ} {S : Set κ} (hp : Nearest k S p) (hq : Nearest k S q) :
    p = q :=
  turn_injective k (le_antisymm (hp.2 q hq.1) (hq.2 p hp.1))

/-- A new element is met first, or it changes nothing. -/
theorem Nearest.of_insert {k p q : κ} {S : Set κ} (h : Nearest k (insert p S) q) :
    q = p ∨ Nearest k S q := by
  rcases h.1 with rfl | hq
  · exact .inl rfl
  · exact .inr ⟨hq, fun r hr ↦ h.2 r (.inr hr)⟩

theorem Nearest.subset {k p : κ} {S T : Set κ} (h : Nearest k S p) (hT : T ⊆ S) (hp : p ∈ T) :
    Nearest k T p :=
  ⟨hp, fun q hq ↦ h.2 q (hT hq)⟩

theorem nearest_self {k : κ} {S : Set κ} (h : k ∈ S) : Nearest k S k :=
  ⟨h, fun _ _ ↦ turn_le_of_le le_rfl id⟩

end Turn

/-- A map as its entries in increasing order of the keys. -/
@[ext]
structure OrderedMap (κ β : Type*) [LinearOrder κ] where
  entries : List (κ × β)
  sorted : entries.Pairwise fun a b ↦ a.1 < b.1

namespace OrderedMap

open Turn

variable {κ β : Type*} [LinearOrder κ]

instance : Membership (κ × β) (OrderedMap κ β) := ⟨fun m e ↦ e ∈ m.entries⟩

theorem mem_def {m : OrderedMap κ β} {e : κ × β} : e ∈ m ↔ e ∈ m.entries := Iff.rfl

def empty : OrderedMap κ β := ⟨[], .nil⟩

theorem not_mem_empty (e : κ × β) : e ∉ (empty : OrderedMap κ β) := List.not_mem_nil

/-- The entry of `k` is written in its place in the order. -/
def put (k : κ) (v : β) : List (κ × β) → List (κ × β)
  | [] => [(k, v)]
  | e :: es =>
    if k < e.1 then (k, v) :: e :: es
    else if k = e.1 then (k, v) :: es
    else e :: put k v es

theorem mem_put {k : κ} {v : β} {es : List (κ × β)} (hs : es.Pairwise fun a b ↦ a.1 < b.1)
    {e : κ × β} : e ∈ put k v es ↔ e = (k, v) ∨ e.1 ≠ k ∧ e ∈ es := by
  induction es with
  | nil => simp [put]
  | cons a es ih =>
    obtain ⟨ha, hes⟩ := List.pairwise_cons.mp hs
    have hgt : ∀ b ∈ es, k ≤ a.1 → b.1 ≠ k := fun b hb hk h ↦ by
      have := ha b hb
      order
    rw [put]
    split_ifs with hlt heq
    · grind
    · grind
    · rw [List.mem_cons, ih hes]
      grind

theorem put_sorted (k : κ) (v : β) {es : List (κ × β)} (hs : es.Pairwise fun a b ↦ a.1 < b.1) :
    (put k v es).Pairwise fun a b ↦ a.1 < b.1 := by
  induction es with
  | nil => simp [put]
  | cons a es ih =>
    obtain ⟨ha, hes⟩ := List.pairwise_cons.mp hs
    rw [put]
    split_ifs with hlt heq
    · exact hs.cons fun b hb ↦ by
        rcases List.mem_cons.mp hb with rfl | hb
        · exact hlt
        · exact hlt.trans (ha b hb)
    · exact hes.cons fun b hb ↦ heq ▸ ha b hb
    · refine (ih hes).cons fun b hb ↦ ?_
      rcases (mem_put hes).mp hb with rfl | ⟨-, hb⟩
      · exact lt_of_le_of_ne (not_lt.mp hlt) (Ne.symm heq)
      · exact ha b hb

def insert (m : OrderedMap κ β) (k : κ) (v : β) : OrderedMap κ β :=
  ⟨put k v m.entries, put_sorted k v m.sorted⟩

def erase (m : OrderedMap κ β) (k : κ) : OrderedMap κ β :=
  ⟨m.entries.filter (·.1 ≠ k), m.sorted.filter _⟩

/-- The first entry whose key is not below `k`. -/
def lowerBound (m : OrderedMap κ β) (k : κ) : Option (κ × β) := m.entries.find? (k ≤ ·.1)

def keys (m : OrderedMap κ β) : Set κ := {p | ∃ v, (p, v) ∈ m}

theorem mem_keys {m : OrderedMap κ β} {p : κ} : p ∈ m.keys ↔ ∃ v, (p, v) ∈ m := Iff.rfl

@[simp, grind =]
theorem mem_insert {m : OrderedMap κ β} {k : κ} {v : β} {e : κ × β} :
    e ∈ m.insert k v ↔ e = (k, v) ∨ e.1 ≠ k ∧ e ∈ m :=
  mem_put m.sorted

@[simp, grind =]
theorem mem_erase {m : OrderedMap κ β} {k : κ} {e : κ × β} : e ∈ m.erase k ↔ e.1 ≠ k ∧ e ∈ m := by
  rw [mem_def, erase, List.mem_filter, mem_def, decide_eq_true_iff, and_comm]

theorem keys_insert (m : OrderedMap κ β) (k : κ) (v : β) :
    (m.insert k v).keys = Insert.insert k m.keys := by
  ext p
  simp only [mem_keys, mem_insert, Prod.mk.injEq, Set.mem_insert_iff]
  constructor
  · rintro ⟨w, ⟨rfl, -⟩ | ⟨-, h⟩⟩
    · exact .inl rfl
    · exact .inr ⟨w, h⟩
  · rintro (rfl | ⟨w, h⟩)
    · exact ⟨v, .inl ⟨rfl, rfl⟩⟩
    · by_cases hp : p = k
      · exact ⟨v, .inl ⟨hp, rfl⟩⟩
      · exact ⟨w, .inr ⟨hp, h⟩⟩

theorem value_unique_of_sorted {es : List (κ × β)} (hs : es.Pairwise fun a b ↦ a.1 < b.1)
    {k : κ} {v w : β} (hv : (k, v) ∈ es) (hw : (k, w) ∈ es) : v = w := by
  induction es with
  | nil => cases hv
  | cons a es ih =>
    obtain ⟨ha, hes⟩ := List.pairwise_cons.mp hs
    rcases List.mem_cons.mp hv with rfl | hv' <;> rcases List.mem_cons.mp hw with hw' | hw'
    · exact (Prod.ext_iff.mp hw').2.symm
    · exact absurd (ha _ hw') (lt_irrefl k)
    · subst hw'
      exact absurd (ha _ hv') (lt_irrefl k)
    · exact ih hes hv' hw'

theorem value_unique {m : OrderedMap κ β} {k : κ} {v w : β} (hv : (k, v) ∈ m)
    (hw : (k, w) ∈ m) : v = w :=
  value_unique_of_sorted m.sorted hv hw

theorem ext_mem {m m' : OrderedMap κ β} (h : ∀ k v, (k, v) ∈ m ↔ (k, v) ∈ m') : m = m' := by
  have hnodup : ∀ m : OrderedMap κ β, m.entries.Nodup := fun m ↦
    m.sorted.imp fun hab he ↦ (he ▸ hab).false
  have hperm : m.entries.Perm m'.entries :=
    (List.perm_ext_iff_of_nodup (hnodup m) (hnodup m')).mpr fun e ↦ h e.1 e.2
  exact OrderedMap.ext (hperm.eq_of_pairwise (fun a b _ _ hab hba ↦ absurd hab hba.not_gt)
    m.sorted m'.sorted)

theorem lowerBound_eq_some {m : OrderedMap κ β} {k : κ} {e : κ × β}
    (h : m.lowerBound k = some e) :
    e ∈ m ∧ k ≤ e.1 ∧ ∀ e' ∈ m, k ≤ e'.1 → e.1 ≤ e'.1 := by
  obtain ⟨hk, as, bs, hes, has⟩ := List.find?_eq_some_iff_append.mp h
  have hs := m.sorted
  rw [hes] at hs
  obtain ⟨-, hbs, -⟩ := List.pairwise_append.mp hs
  refine ⟨by rw [mem_def, hes]; simp, by simpa using hk, fun e' he' hk' ↦ ?_⟩
  rw [mem_def, hes] at he'
  rcases List.mem_append.mp he' with ha | hb
  · exact absurd hk' (by simpa using has e' ha)
  · rcases List.mem_cons.mp hb with rfl | hb
    · exact le_rfl
    · exact ((List.pairwise_cons.mp hbs).1 e' hb).le

theorem lowerBound_eq_none {m : OrderedMap κ β} {k : κ} :
    m.lowerBound k = none ↔ ∀ e ∈ m, e.1 < k := by
  simp [lowerBound, List.find?_eq_none, mem_def]

/-- The entry a search from `k` on ends at, starting over at the first entry
when there is none left. -/
def atOrAfter (m : OrderedMap κ β) (k : κ) : Option (κ × β) :=
  (m.lowerBound k).or m.entries.head?

theorem head_eq_some {m : OrderedMap κ β} {e : κ × β} (h : m.entries.head? = some e) :
    e ∈ m ∧ ∀ e' ∈ m, e.1 ≤ e'.1 := by
  obtain ⟨es, hes⟩ := List.head?_eq_some_iff.mp h
  have hs := m.sorted
  rw [hes] at hs
  refine ⟨by rw [mem_def, hes]; exact List.mem_cons_self, fun e' he' ↦ ?_⟩
  rw [mem_def, hes] at he'
  rcases List.mem_cons.mp he' with rfl | he'
  · exact le_rfl
  · exact ((List.pairwise_cons.mp hs).1 e' he').le

theorem atOrAfter_nearest {m : OrderedMap κ β} {k : κ} {e : κ × β}
    (h : m.atOrAfter k = some e) : e ∈ m ∧ Nearest k m.keys e.1 := by
  unfold atOrAfter at h
  cases hl : m.lowerBound k with
  | some e' =>
    obtain rfl : e' = e := by simpa [hl] using h
    obtain ⟨he, hk, hmin⟩ := lowerBound_eq_some hl
    refine ⟨he, ⟨_, he⟩, ?_⟩
    rintro q ⟨w, hq⟩
    exact turn_le_of_le hk (hmin _ hq)
  | none =>
    obtain ⟨he, hmin⟩ := head_eq_some (by simpa [hl] using h)
    have hlt := lowerBound_eq_none.mp hl
    refine ⟨he, ⟨_, he⟩, ?_⟩
    rintro q ⟨w, hq⟩
    exact turn_le_of_lt (hlt _ he) (hlt _ hq) (hmin _ hq)

theorem atOrAfter_eq_none {m : OrderedMap κ β} {k : κ} :
    m.atOrAfter k = none ↔ m.entries = [] := by
  constructor
  · intro h
    exact List.head?_eq_none_iff.mp (Option.or_eq_none_iff.mp h).2
  · intro h
    simp [atOrAfter, lowerBound, h]

/-- The search ends at the entry met first, and nowhere else. -/
theorem atOrAfter_eq_some {m : OrderedMap κ β} {k : κ} {e : κ × β} :
    m.atOrAfter k = some e ↔ e ∈ m ∧ Nearest k m.keys e.1 := by
  refine ⟨atOrAfter_nearest, ?_⟩
  intro h
  obtain ⟨he, hnear⟩ := h
  cases hs : m.atOrAfter k with
  | none =>
    rw [mem_def, atOrAfter_eq_none.mp hs] at he
    cases he
  | some e' =>
    obtain ⟨he', hnear'⟩ := atOrAfter_nearest hs
    have hkey := hnear'.unique hnear
    have hvalue : e'.2 = e.2 := value_unique (k := e.1) (hkey ▸ he') he
    rw [Prod.ext hkey hvalue]

/-- The entry under `v` for each of the keys. -/
def insertAll (m : OrderedMap κ β) (ks : List κ) (v : β) : OrderedMap κ β :=
  ks.foldl (fun m k ↦ m.insert k v) m

def eraseAll (m : OrderedMap κ β) (ks : List κ) : OrderedMap κ β := ks.foldl erase m

@[simp, grind =]
theorem mem_insertAll {m : OrderedMap κ β} {ks : List κ} {v : β} {e : κ × β} :
    e ∈ m.insertAll ks v ↔ e.1 ∈ ks ∧ e.2 = v ∨ e.1 ∉ ks ∧ e ∈ m := by
  induction ks generalizing m with
  | nil => simp [insertAll]
  | cons k ks ih =>
    have hstep : m.insertAll (k :: ks) v = (m.insert k v).insertAll ks v := rfl
    rw [hstep, ih, mem_insert, List.mem_cons, Prod.ext_iff]
    grind

@[simp, grind =]
theorem mem_eraseAll {m : OrderedMap κ β} {ks : List κ} {e : κ × β} :
    e ∈ m.eraseAll ks ↔ e.1 ∉ ks ∧ e ∈ m := by
  induction ks generalizing m with
  | nil => simp [eraseAll]
  | cons k ks ih =>
    have hstep : m.eraseAll (k :: ks) = (m.erase k).eraseAll ks := rfl
    rw [hstep, ih, mem_erase, List.mem_cons]
    grind

theorem atOrAfter_insert {m : OrderedMap κ β} {k p : κ} {v : β} {e : κ × β}
    (h : (m.insert p v).atOrAfter k = some e) : e.2 = v ∨ m.atOrAfter k = some e := by
  obtain ⟨he, hnear⟩ := atOrAfter_nearest h
  rcases mem_insert.mp he with rfl | ⟨hne, he⟩
  · exact .inl rfl
  · rw [keys_insert] at hnear
    exact .inr (atOrAfter_eq_some.mpr ⟨he, hnear.of_insert.resolve_left hne⟩)

/-- After writes of one value the search ends at that value, or where it ended. -/
theorem atOrAfter_insertAll {m : OrderedMap κ β} {k : κ} {ps : List κ} {v : β} {e : κ × β}
    (h : (m.insertAll ps v).atOrAfter k = some e) : e.2 = v ∨ m.atOrAfter k = some e := by
  induction ps generalizing m with
  | nil => exact .inr h
  | cons p ps ih =>
    rcases ih h with hv | h'
    · exact .inl hv
    · exact atOrAfter_insert h'

theorem atOrAfter_eraseAll {m : OrderedMap κ β} {k : κ} {ps : List κ} {e : κ × β}
    (h : m.atOrAfter k = some e) (hp : e.1 ∉ ps) : (m.eraseAll ps).atOrAfter k = some e := by
  obtain ⟨he, hnear⟩ := atOrAfter_nearest h
  have he' : e ∈ m.eraseAll ps := mem_eraseAll.mpr ⟨hp, he⟩
  refine atOrAfter_eq_some.mpr ⟨he', hnear.subset ?_ ⟨_, he'⟩⟩
  rintro q ⟨w, hq⟩
  exact ⟨w, (mem_eraseAll.mp hq).2⟩

theorem atOrAfter_self {m : OrderedMap κ β} {k : κ} {v : β} (h : (k, v) ∈ m) :
    m.atOrAfter k = some (k, v) :=
  atOrAfter_eq_some.mpr ⟨h, nearest_self ⟨v, h⟩⟩

def find (m : OrderedMap κ β) (k : κ) : Option β := (m.entries.find? (·.1 = k)).map (·.2)

theorem find_eq_some {m : OrderedMap κ β} {k : κ} {v : β} : m.find k = some v ↔ (k, v) ∈ m := by
  constructor
  · intro h
    obtain ⟨e, he, rfl⟩ := Option.map_eq_some_iff.mp h
    have hkey : e.1 = k := by simpa using List.find?_some he
    exact hkey ▸ List.mem_of_find?_eq_some he
  · intro h
    cases he : m.entries.find? (·.1 = k) with
    | none =>
      have hne := List.find?_eq_none.mp he _ h
      simp at hne
    | some e =>
      have hkey : e.1 = k := by simpa using List.find?_some he
      have hmem : (k, e.2) ∈ m := hkey ▸ List.mem_of_find?_eq_some he
      rw [find, he, Option.map_some, value_unique hmem h]

theorem find_insert (m : OrderedMap κ β) (k : κ) (v : β) (j : κ) :
    (m.insert k v).find j = if j = k then some v else m.find j := by
  refine Option.ext fun w ↦ ?_
  rw [find_eq_some, mem_insert]
  by_cases hj : j = k
  · simp [hj, eq_comm]
  · simp [hj, find_eq_some]

theorem find_empty (k : κ) : (empty : OrderedMap κ β).find k = none := rfl

end OrderedMap
