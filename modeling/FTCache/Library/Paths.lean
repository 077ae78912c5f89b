import Mathlib.Data.List.Infix

/-! Absolute paths as lists of names, and as the text that spells them. -/

namespace Paths

variable {χ : Type*} {sep : χ}

/-- A name is not empty, and does not contain the separator. -/
structure Name (sep : χ) where
  chars : List χ
  nonempty : chars ≠ []
  plain : sep ∉ chars

@[ext]
theorem Name.ext {n m : Name sep} (h : n.chars = m.chars) : n = m := by
  cases n
  cases m
  cases h
  rfl

/-- The names, each after a separator. -/
def body : List (Name sep) → List χ
  | [] => []
  | n :: ns => sep :: n.chars ++ body ns

/-- The text of an absolute path; the root has no names. -/
def text : List (Name sep) → List χ
  | [] => [sep]
  | n :: ns => body (n :: ns)

/-- Nothing, or something that starts with the separator. -/
def Bounded (sep : χ) (l : List χ) : Prop := l = [] ∨ ∃ k, l = sep :: k

theorem body_bounded (ns : List (Name sep)) : Bounded sep (body ns) := by
  cases ns with
  | nil => exact .inl rfl
  | cons n ns => exact .inr ⟨n.chars ++ body ns, rfl⟩

theorem body_append (ms ns : List (Name sep)) : body (ms ++ ns) = body ms ++ body ns := by
  induction ms with
  | nil => rfl
  | cons m ms ih => simp [body, ih]

theorem text_of_ne_nil {ns : List (Name sep)} (h : ns ≠ []) : text ns = body ns := by
  cases ns with
  | nil => exact absurd rfl h
  | cons n ns => rfl

/-- A list without the separator ends where a bounded one begins. -/
theorem append_bounded_inj {n m x y : List χ} (hn : sep ∉ n) (hm : sep ∉ m)
    (hx : Bounded sep x) (hy : Bounded sep y) (h : n ++ x = m ++ y) : n = m ∧ x = y := by
  induction n generalizing m with
  | nil =>
    cases m with
    | nil => exact ⟨rfl, h⟩
    | cons c m =>
      obtain rfl | ⟨k, rfl⟩ := hx
      · cases h
      · obtain ⟨rfl, -⟩ : sep = c ∧ k = m ++ y := by simpa using h
        exact absurd List.mem_cons_self hm
  | cons c n ih =>
    cases m with
    | nil =>
      obtain rfl | ⟨k, rfl⟩ := hy
      · cases h
      · obtain ⟨rfl, -⟩ : c = sep ∧ n ++ x = k := by simpa using h
        exact absurd List.mem_cons_self hn
    | cons d m =>
      obtain ⟨rfl, htail⟩ : c = d ∧ n ++ x = m ++ y := by simpa using h
      obtain ⟨rfl, he⟩ := ih (fun hs ↦ hn (List.mem_cons_of_mem _ hs))
        (fun hs ↦ hm (List.mem_cons_of_mem _ hs)) htail
      exact ⟨rfl, he⟩

/-- Bodies match in front up to a separator exactly where the names do. -/
theorem body_prefix {ms ns : List (Name sep)} {z : List χ} (hz : Bounded sep z)
    (h : body ms ++ z = body ns) : ms <+: ns := by
  induction ms generalizing ns with
  | nil => exact List.nil_prefix
  | cons m ms ih =>
    cases ns with
    | nil => cases h
    | cons n ns =>
      have hrest : m.chars ++ (body ms ++ z) = n.chars ++ body ns := by
        simpa [body] using h
      have hbound : Bounded sep (body ms ++ z) := by
        obtain he | ⟨k, he⟩ := body_bounded ms
        · rwa [he]
        · exact .inr ⟨k ++ z, by rw [he]; rfl⟩
      obtain ⟨hname, hbody⟩ := append_bounded_inj m.plain n.plain hbound (body_bounded ns) hrest
      obtain rfl := Name.ext hname
      exact (List.prefix_cons_inj _).mpr (ih hbody)

/-- Containment read off the text: the root, the same path, or one that goes on after
a separator. -/
theorem prefix_iff_text (ms ns : List (Name sep)) : ms <+: ns ↔
    ms = [] ∨ text ms = text ns ∨ text ms ++ [sep] <+: text ns := by
  constructor
  · intro h
    obtain ⟨ks, rfl⟩ := h
    cases ms with
    | nil => exact .inl rfl
    | cons m ms =>
      rw [text_of_ne_nil (by simp), text_of_ne_nil (by simp), body_append]
      cases ks with
      | nil => exact .inr (.inl (by simp [body]))
      | cons k ks =>
        refine .inr (.inr ⟨k.chars ++ body ks, ?_⟩)
        simp [body]
  · intro h
    cases ms with
    | nil => exact List.nil_prefix
    | cons m ms =>
      rw [text_of_ne_nil (by simp)] at h
      obtain h | h | ⟨k, h⟩ := h
      · cases h
      · cases ns with
        | nil =>
          obtain ⟨hname, -⟩ : m.chars = [] ∧ body ms = [] := by simpa [body, text] using h
          exact absurd hname m.nonempty
        | cons n ns => exact body_prefix (.inl rfl) (by simpa [text] using h)
      · cases ns with
        | nil =>
          have hlen := congrArg List.length h
          simp [body, text] at hlen
        | cons n ns => exact body_prefix (.inr ⟨k, rfl⟩) (by simpa [text] using h)

/-- A path occurs in the text of everything below it. -/
theorem infix_of_prefix {ms ns : List (Name sep)} (h : ms <+: ns) : text ms <:+: text ns := by
  obtain rfl | he | hpre := (prefix_iff_text ms ns).mp h
  · cases ns with
    | nil => exact List.infix_rfl
    | cons n ns => exact ⟨[], n.chars ++ body ns, rfl⟩
  · rw [he]
  · exact ((List.prefix_append _ _).trans hpre).isInfix

end Paths
