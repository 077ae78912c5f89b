import FTCache.Client
import FTCache.Interception
import FTCache.Library.Runs
import FTCache.Library.Scan

namespace FTCache.AddressLookup

open Words Runs Scan

abbrev Text := List Char

def pathMax : ℕ := 4096

structure PortLine where
  rank : ℤ
  address : Address
  lower : -2 ^ 31 ≤ rank
  upper : rank < 2 ^ 31
  nonempty : address ≠ []
  plain : ∀ c ∈ address, isSpace c = false
  /-- `self_addr_string` has as many bytes as `svr_str`. -/
  fits : address.length < pathMax

/-- `"%d %s\n"`. -/
def PortLine.text (e : PortLine) : Text :=
  Interception.decimal e.rank ++ ' ' :: e.address ++ ['\n']

def PortLine.pair (e : PortLine) : Host × Address := (e.rank, e.address)

/-- `fscanf` of `"%d %s\n"` where it converts both: what it stores and what it leaves unread.
The `%d` stores in an `int` what `strtol` makes of the number. -/
def scanPair (t : Text) : Option ((Host × Address) × Text) :=
  (strtol t).bind fun n ↦ (word n.2).map fun w ↦ ((int32 n.1, w.1), skipSpace w.2)

theorem scanPair_length_lt {t rest : Text} {e : Host × Address}
    (h : scanPair t = some (e, rest)) : rest.length < t.length := by
  obtain ⟨n, hn, h⟩ := Option.bind_eq_some_iff.mp h
  obtain ⟨w, hw, h⟩ := Option.map_eq_some_iff.mp h
  obtain ⟨r, hr, rfl⟩ := Option.map_eq_some_iff.mp hn
  cases h
  calc (skipSpace w.2).length ≤ w.2.length := skipSpace_length_le _
    _ ≤ r.2.length := word_length_le hw
    _ < t.length := number_length_lt hr

/-- The loop of `ftc_client_comm_lookup_addr`: `svr_str` where it breaks off. -/
def search (rank : Host) (t : Text) : Option Address :=
  match _ : scanPair t with
  | none => none
  | some r => if r.1.1 = rank then some r.1.2 else search rank r.2
termination_by t.length
decreasing_by exact scanPair_length_lt ‹_›

def entries (t : Text) : List (Host × Address) :=
  match _ : scanPair t with
  | none => []
  | some r => r.1 :: entries r.2
termination_by t.length
decreasing_by exact scanPair_length_lt ‹_›

section Loop

variable {t : Text} {r : (Host × Address) × Text} {rank : Host}

theorem search_of_none (h : scanPair t = none) : search rank t = none := by
  rw [search]
  split <;> simp_all

theorem search_of_some (h : scanPair t = some r) :
    search rank t = if r.1.1 = rank then some r.1.2 else search rank r.2 := by
  rw [search]
  split <;> simp_all

theorem entries_of_none (h : scanPair t = none) : entries t = [] := by
  rw [entries]
  split <;> simp_all

theorem entries_of_some (h : scanPair t = some r) : entries t = r.1 :: entries r.2 := by
  rw [entries]
  split <;> simp_all

/-- For all contents of the file, the loop finds the first pair with the rank. -/
theorem search_eq (rank : Host) (t : Text) :
    search rank t = ((entries t).find? (·.1 = rank)).map Prod.snd := by
  induction t using search.induct rank with
  | case1 t h => simp [search_of_none h, entries_of_none h]
  | case2 t r h hr => simp [search_of_some h, entries_of_some h, hr]
  | case3 t r h hr ih => simp [search_of_some h, entries_of_some h, hr, ih]

end Loop

section RoundTrip

theorem number_decimal {z : ℤ} {t : Text} (ht : Ends Char.isDigit t) :
    number (Interception.decimal z ++ t) = some (z, t) := by
  cases z with
  | ofNat n => exact number_toDigits n ht
  | negSucc n => simpa [Interception.decimal, Int.negSucc_eq] using number_neg_toDigits (n + 1) ht

/-- What a server writes, a client reads. -/
theorem scanPair_text (e : PortLine) (t : Text) :
    scanPair (e.text ++ t) = some (e.pair, skipSpace t) := by
  have hrank : strtol (e.text ++ t) = some (e.rank, ' ' :: (e.address ++ '\n' :: t)) := by
    have hnum := number_decimal (z := e.rank) (t := ' ' :: (e.address ++ '\n' :: t))
      (by simp [Ends])
    have hlo := e.lower
    have hhi := e.upper
    exact strtol_of_number (by simpa [PortLine.text] using hnum) (by omega) (by omega)
  have hword : word (' ' :: (e.address ++ '\n' :: t)) = some (e.address, '\n' :: t) := by
    rw [word_space rfl]
    exact word_append e.nonempty e.plain (by simp [Ends, isSpace])
  have hspace : skipSpace ('\n' :: t) = skipSpace t := skipSpace_space rfl
  simp [scanPair, hrank, hword, int32_of_range e.lower e.upper, PortLine.pair, hspace]

theorem scanPair_skipSpace (t : Text) : scanPair (skipSpace t) = scanPair t := by
  simp [scanPair]

theorem entries_skipSpace (t : Text) : entries (skipSpace t) = entries t := by
  cases h : scanPair t with
  | none => rw [entries_of_none h, entries_of_none ((scanPair_skipSpace t).trans h)]
  | some r => rw [entries_of_some h, entries_of_some ((scanPair_skipSpace t).trans h)]

theorem entries_lines (lines : List PortLine) :
    entries (lines.flatMap PortLine.text) = lines.map PortLine.pair := by
  induction lines with
  | nil => exact entries_of_none (by decide)
  | cons e lines ih =>
    rw [List.flatMap_cons, entries_of_some (scanPair_text e _), entries_skipSpace, ih,
      List.map_cons]

end RoundTrip

/-- The port file of a job and a client that looks addresses up in it. `lines` is a history
variable: what the servers have written. -/
structure State where
  file : Option Text
  lines : List PortLine
  addressCache : PMap Host Address := fun _ ↦ none
  streams : ℕ := 0

def start (lines : Option (List PortLine)) : State where
  file := lines.map fun ls ↦ ls.flatMap PortLine.text
  lines := lines.getD []

inductive Op
  | listAddr (e : PortLine)
  | lookup (rank : Host)

namespace State

variable (room : ℕ) (s : State)

/-- `ftc_comm_list_addr`, with the file opened for appending. -/
def ftcCommListAddr (e : PortLine) : State :=
  { s with file := some (s.file.getD [] ++ e.text), lines := s.lines ++ [e] }

/-- `fopen` of the port file by a client that has `room` for so many streams. -/
def fopen : Option Text := if s.streams < room then s.file else none

def ftcClientCommLookupAddr (rank : Host) : Lookup × State :=
  match s.addressCache rank with
  | some a => (.found a, s)
  | none =>
    match s.fopen room with
    | none => (.null, s)
    | some t =>
      -- na_config is never closed
      let s := { s with streams := s.streams + 1 }
      match search rank t with
      | some a => (.found a, { s with addressCache := s.addressCache.insert rank a })
      -- target_server is returned without having been set
      | none => (.uninitialised, s)

/-- The lookup reads the text as the client's model reads the pairs that the text holds. -/
theorem ftcClientCommLookupAddr_eq (rank : Host) :
    ((s.ftcClientCommLookupAddr room rank).1,
      (s.ftcClientCommLookupAddr room rank).2.addressCache) =
    FTCache.ftcClientCommLookupAddr ((s.fopen room).map entries) s.addressCache rank := by
  simp only [ftcClientCommLookupAddr, FTCache.ftcClientCommLookupAddr]
  cases s.addressCache rank with
  | some a => rfl
  | none =>
    cases s.fopen room with
    | none => rfl
    | some t =>
      simp only [search_eq, Option.map_some]
      cases (entries t).find? (·.1 = rank) <;> rfl

def firstAddress (rank : Host) : Option Address :=
  (s.lines.find? (·.rank = rank)).map PortLine.address

/-- A lookup agrees with the lines there are. -/
structure Resolves (rank : Host) : Prop where
  listed : ∀ a, s.firstAddress rank = some a → (s.ftcClientCommLookupAddr room rank).1 = .found a
  cached : (s.addressCache rank).isSome → ∃ a,
    (s.ftcClientCommLookupAddr room rank).1 = .found a ∧ s.file.bind (search rank) = some a
  unlisted : s.firstAddress rank = none → (s.ftcClientCommLookupAddr room rank).1 = .null ∧
    (s.ftcClientCommLookupAddr room rank).2.addressCache = s.addressCache

end State

def step (room : ℕ) (s : State) : Op → Option State
  | .listAddr e => some (s.ftcCommListAddr e)
  | .lookup rank => some (s.ftcClientCommLookupAddr room rank).2

def Agrees (room : ℕ) (s : State) : Op → Prop
  | .listAddr _ => True
  | .lookup rank => s.Resolves room rank

/-- A rank whose address the client does not know has a line exactly if `fopen` still works, or
there is no file. -/
def Listed (room : ℕ) (s : State) : Op → Prop
  | .listAddr _ => True
  | .lookup rank => (s.addressCache rank).isSome ∨ s.file = none ∨
      ((∃ e ∈ s.lines, e.rank = rank) ↔ s.streams < room)

namespace State

variable {room : ℕ} {s : State} {rank : Host}

/-- The file holds the lines, and the cache only what the lines say. -/
structure Sound (s : State) : Prop where
  file : s.file.getD [] = s.lines.flatMap PortLine.text
  absent : s.file = none → s.lines = []
  cache : ∀ rank a, s.addressCache rank = some a → s.firstAddress rank = some a

theorem exists_line : (∃ e ∈ s.lines, e.rank = rank) ↔ (s.firstAddress rank).isSome := by
  simp [firstAddress]

theorem firstAddress_append {a : Address} (h : s.firstAddress rank = some a) (e : PortLine) :
    (s.ftcCommListAddr e).firstAddress rank = some a := by
  obtain ⟨l, hl, rfl⟩ := Option.map_eq_some_iff.mp h
  simp [firstAddress, ftcCommListAddr, List.find?_append, hl]

theorem Sound.search_eq (hs : s.Sound) {t : Text} (ht : s.file = some t) :
    search rank t = s.firstAddress rank := by
  have hfile : t = s.lines.flatMap PortLine.text := by simpa [ht] using hs.file
  rw [AddressLookup.search_eq, hfile, entries_lines, List.find?_map, Option.map_map]
  rfl

theorem Sound.start (lines : Option (List PortLine)) : (start lines).Sound where
  file := by cases lines <;> rfl
  absent := by cases lines <;> simp [AddressLookup.start]
  cache := by simp [AddressLookup.start]

theorem Sound.listAddr (hs : s.Sound) (e : PortLine) : (s.ftcCommListAddr e).Sound where
  file := by simp [ftcCommListAddr, hs.file]
  absent := by simp [ftcCommListAddr]
  cache rank a ha := firstAddress_append (hs.cache rank a ha) e

theorem Sound.lookup_cases (hs : s.Sound) (room : ℕ) (rank : Host) :
    (∃ a, s.addressCache rank = some a ∧ s.ftcClientCommLookupAddr room rank = (.found a, s)) ∨
    (s.addressCache rank = none ∧ s.fopen room = none ∧
      s.ftcClientCommLookupAddr room rank = (.null, s)) ∨
    (s.addressCache rank = none ∧ (s.fopen room).isSome ∧ ∃ a, s.firstAddress rank = some a ∧
      s.ftcClientCommLookupAddr room rank = (.found a, { s with
        streams := s.streams + 1, addressCache := s.addressCache.insert rank a })) ∨
    (s.addressCache rank = none ∧ (s.fopen room).isSome ∧ s.firstAddress rank = none ∧
      s.ftcClientCommLookupAddr room rank =
        (.uninitialised, { s with streams := s.streams + 1 })) := by
  cases hc : s.addressCache rank with
  | some a => exact .inl ⟨a, rfl, by simp [ftcClientCommLookupAddr, hc]⟩
  | none =>
    cases hf : s.fopen room with
    | none => exact .inr (.inl ⟨rfl, rfl, by simp [ftcClientCommLookupAddr, hc, hf]⟩)
    | some t =>
      have hfile : s.file = some t := by
        simp only [fopen] at hf
        split at hf
        · exact hf
        · cases hf
      have hsearch : search rank t = s.firstAddress rank := hs.search_eq hfile
      cases ha : s.firstAddress rank with
      | some a =>
        exact .inr (.inr (.inl ⟨rfl, rfl, a, rfl, by
          simp [ftcClientCommLookupAddr, hc, hf, hsearch, ha]⟩))
      | none =>
        exact .inr (.inr (.inr ⟨rfl, rfl, rfl, by
          simp [ftcClientCommLookupAddr, hc, hf, hsearch, ha]⟩))

theorem Sound.lookup (hs : s.Sound) (room : ℕ) (rank : Host) :
    (s.ftcClientCommLookupAddr room rank).2.Sound := by
  obtain ⟨a, -, he⟩ | ⟨-, -, he⟩ | ⟨-, -, a, ha, he⟩ | ⟨-, -, -, he⟩ := hs.lookup_cases room rank
  · rwa [he]
  · rwa [he]
  · rw [he]
    refine ⟨hs.file, hs.absent, fun rank' a' h' ↦ ?_⟩
    by_cases heq : rank' = rank
    · subst heq
      have ha' : a = a' := by simpa using h'
      rwa [← ha']
    · exact hs.cache rank' a' (by simpa [heq] using h')
  · rw [he]
    exact ⟨hs.file, hs.absent, hs.cache⟩

theorem Sound.step (hs : s.Sound) {op : Op} {s' : State} (h : step room s op = some s') :
    s'.Sound := by
  cases op with
  | listAddr e =>
    cases h
    exact hs.listAddr e
  | lookup rank =>
    cases h
    exact hs.lookup room rank

theorem fopen_isSome : (s.fopen room).isSome ↔ s.file ≠ none ∧ s.streams < room := by
  unfold fopen
  split <;> simp_all [Option.isSome_iff_ne_none]

theorem fopen_eq_none (h : s.fopen room = none) : s.file = none ∨ room ≤ s.streams := by
  unfold fopen at h
  split at h
  case isTrue => exact .inl h
  case isFalse hfull => exact .inr (not_lt.mp hfull)

/-- A cached address is what a new scan of the file finds. -/
theorem Sound.rescan (hs : s.Sound) {a : Address} (h : s.addressCache rank = some a) :
    s.file.bind (search rank) = some a := by
  have hfirst := hs.cache rank a h
  cases hf : s.file with
  | none => simp [firstAddress, hs.absent hf] at hfirst
  | some t => exact (hs.search_eq hf).trans hfirst

theorem Sound.resolves_cached (hs : s.Sound) {a : Address} (h : s.addressCache rank = some a) :
    s.Resolves room rank := by
  have he : s.ftcClientCommLookupAddr room rank = (.found a, s) := by
    simp [ftcClientCommLookupAddr, h]
  refine ⟨fun b hb ↦ ?_, fun _ ↦ ⟨a, by rw [he], hs.rescan h⟩, fun hn ↦ ?_⟩
  · have hab : a = b := Option.some_inj.mp ((hs.cache rank a h).symm.trans hb)
    rw [he, hab]
  · rw [hs.cache rank a h] at hn
    cases hn

theorem Sound.agrees_iff (hs : s.Sound) (op : Op) : Agrees room s op ↔ Listed room s op := by
  cases op with
  | listAddr e => exact Iff.rfl
  | lookup rank =>
    simp only [Agrees, Listed, exists_line]
    obtain ⟨a, hc, -⟩ | ⟨hc, hf, he⟩ | ⟨hc, hf, a, ha, he⟩ | ⟨hc, hf, ha, he⟩ :=
      hs.lookup_cases room rank
    · simp [hs.resolves_cached hc, hc]
    · have hnull : s.Resolves room rank ↔ s.firstAddress rank = none := by
        refine ⟨fun hr ↦ ?_, fun hn ↦ ⟨by simp [hn], by simp [hc], fun _ ↦ by simp [he]⟩⟩
        by_contra hne
        obtain ⟨a, ha⟩ := Option.ne_none_iff_exists'.mp hne
        simpa [he] using hr.listed a ha
      rw [hnull, hc]
      obtain hfile | hfull := fopen_eq_none hf
      · simp [hfile, firstAddress, hs.absent hfile]
      · have habsent : s.file = none → s.firstAddress rank = none := fun hfile ↦ by
          simp [firstAddress, hs.absent hfile]
        simp only [Option.isSome_none, Bool.false_eq_true, not_lt.mpr hfull, iff_false, false_or]
        exact ⟨fun hn ↦ .inr (by simp [hn]), fun h ↦ h.elim habsent fun hn ↦ by simpa using hn⟩
    · have hopen := fopen_isSome.mp hf
      have hres : s.Resolves room rank :=
        ⟨by simp [ha, he], by simp [hc], by simp [ha]⟩
      simp [hres, ha, hopen.2]
    · have hopen := fopen_isSome.mp hf
      have hres : ¬s.Resolves room rank := fun hr ↦ by simpa [he] using (hr.unlisted ha).1
      simp [hres, hc, ha, hopen.1, hopen.2]

end State

/-- No word that the loop can store is too long for `svr_str`. -/
theorem words_fit {room : ℕ} {lines : Option (List PortLine)} {s : State} {t : Text}
    (h : Reach (step room) (fun _ _ ↦ True) (start lines) s) (ht : s.file = some t) :
    ∀ e ∈ entries t, e.2.length < pathMax := by
  have hs : s.Sound := h.invariant State.Sound (.start lines) fun _ _ _ hs _ hc ↦ hs.step hc
  have hfile : t = s.lines.flatMap PortLine.text := by simpa [ht] using hs.file
  rw [hfile, entries_lines, List.forall_mem_map]
  exact fun e _ ↦ e.fits

/-- Whatever the servers append and the client looks up, its lookups agree with the port file
throughout exactly if they are all for listed ranks. -/
theorem lookups_agree_iff (room : ℕ) (lines : Option (List PortLine)) (ops : List Op) :
    Along (step room) (Agrees room) (start lines) ops ↔
      Along (step room) (Listed room) (start lines) ops :=
  Along.congr (I := State.Sound) (fun _ op hs ↦ hs.agrees_iff op) (fun _ _ _ hs h ↦ hs.step h)
    (.start lines)

/-- A lookup for a rank whose server has not written its line yet. -/
theorem lookup_early :
    ¬∀ (room : ℕ) (lines : Option (List PortLine)) (ops : List Op),
      Along (step room) (Agrees room) (start lines) ops := by
  intro h
  have hplain : ∀ c ∈ ['a'], isSpace c = false := by simp [isSpace]
  let e : PortLine := ⟨0, ['a'], by omega, by omega, by simp, hplain, by simp [pathMax]⟩
  have hagrees := ((h 1 none [.listAddr e, .lookup 1]).2 _ rfl).1
  have hlisted := (((State.Sound.start none).listAddr e).agrees_iff _).mp hagrees
  simp [Listed, State.ftcCommListAddr, start, e] at hlisted

end FTCache.AddressLookup
