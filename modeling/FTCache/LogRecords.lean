import FTCache.AddressLookup
import FTCache.Library.CharArrays
import FTCache.LivePlacement

/-! The records of the log: what its lines say, and which node a request came from. -/

namespace FTCache.LogRecords

open CharArrays

abbrev Text := List Char

section Addresses

/-- The second colon of an address, as two calls of `strchr` find it. -/
def secondColon (address : Text) : Option ℕ :=
  (address.findIdx? (· = ':')).bind fun pos ↦
    ((address.drop (pos + 1)).findIdx? (· = ':')).map (pos + 1 + ·)

/-- `extract_ip_portion`, with the array it fills. -/
def extractIpPortion (fullAddress ipPortion : Text) (maxLen : ℕ) : Option Text :=
  match secondColon fullAddress with
  | some pos =>
    if pos + 1 < maxLen then
      (strncpy ipPortion fullAddress (pos + 1)).bind (store · (pos + 1) nul)
    else (strncpy ipPortion fullAddress (maxLen - 1)).bind (store · (maxLen - 1) nul)
  | none => (strncpy ipPortion fullAddress (maxLen - 1)).bind (store · (maxLen - 1) nul)

/-- An address up to its second colon. -/
def node (address : Text) : Text :=
  match secondColon address with
  | some pos => address.take (pos + 1)
  | none => address

/-- The array stays within its bounds, and holds the node as far as it fits. -/
theorem extractIpPortion_text {fullAddress : Text} (ipPortion : Text) (hnul : nul ∉ fullAddress)
    (hlen : 0 < ipPortion.length) : ∃ b,
    extractIpPortion fullAddress ipPortion ipPortion.length = some b ∧
      text b = some ((node fullAddress).take (ipPortion.length - 1)) := by
  unfold extractIpPortion node
  cases secondColon fullAddress with
  | none =>
    obtain ⟨b, hb, -, ht⟩ := strncpy_store ipPortion (ipPortion.length - 1) hnul
      (by omega)
    exact ⟨b, hb, ht⟩
  | some pos =>
    simp only
    split
    case isTrue h =>
      obtain ⟨b, hb, -, ht⟩ := strncpy_store ipPortion (pos + 1) hnul h
      refine ⟨b, hb, ?_⟩
      rw [ht, List.take_take, Nat.min_eq_right (by omega)]
    case isFalse h =>
      obtain ⟨b, hb, -, ht⟩ := strncpy_store ipPortion (ipPortion.length - 1) hnul
        (by omega)
      refine ⟨b, hb, ?_⟩
      rw [ht, List.take_take, Nat.min_eq_left (by omega)]

/-- `log_info.flag`: the one address is kept in `own`, the other one is put into `other`. -/
def flag (ownAddress otherAddress own other : Text) : Option Bool := do
  let own ← extractIpPortion ownAddress own 128
  let other ← extractIpPortion otherAddress other 128
  let s ← text own
  let t ← text other
  return s = t

theorem findIdx_append {s t : Text} {c : Char} (hs : c ∉ s) :
    (s ++ c :: t).findIdx? (· = c) = some s.length := by
  induction s with
  | nil => simp [List.findIdx?_cons]
  | cons d s ih =>
    have hd : d ≠ c := fun he ↦ hs (he ▸ List.mem_cons_self)
    have hrest := ih fun hmem ↦ hs (List.mem_cons_of_mem _ hmem)
    simp [List.findIdx?_cons, hd, hrest]

/-- `scheme://host:port`. -/
def fullAddress (scheme host port : Text) : Text :=
  scheme ++ ':' :: '/' :: '/' :: (host ++ ':' :: port)

theorem node_fullAddress {scheme host port : Text} (hs : ':' ∉ scheme) (hh : ':' ∉ host) :
    node (fullAddress scheme host port) = scheme ++ ':' :: '/' :: '/' :: (host ++ [':']) := by
  have hrest : ((fullAddress scheme host port).drop (scheme.length + 1)).findIdx? (· = ':') =
      some (host.length + 2) := by
    have hdrop : (fullAddress scheme host port).drop (scheme.length + 1) =
        ('/' :: '/' :: host) ++ ':' :: port := by
      simp [fullAddress, List.drop_append]
    rw [hdrop, findIdx_append (by simpa using hh)]
    rfl
  have hsecond : secondColon (fullAddress scheme host port) =
      some (scheme.length + 1 + (host.length + 2)) := by
    rw [secondColon, fullAddress, findIdx_append hs, Option.bind_some]
    exact congrArg (Option.map (scheme.length + 1 + ·)) hrest
  rw [node, hsecond]
  have hlen : (scheme ++ ':' :: '/' :: '/' :: (host ++ [':'])).length =
      scheme.length + 1 + (host.length + 2) + 1 := by
    simp
    omega
  have hsplit : fullAddress scheme host port =
      (scheme ++ ':' :: '/' :: '/' :: (host ++ [':'])) ++ port := by
    simp [fullAddress]
  simp only [hsplit]
  rw [← hlen, List.take_left]

theorem flag_eq {a b own other : Text} (ha : nul ∉ a) (hb : nul ∉ b) (hown : own.length = 128)
    (hother : other.length = 128) :
    flag a b own other = some (decide ((node a).take 127 = (node b).take 127)) := by
  obtain ⟨p, hp, hpt⟩ := extractIpPortion_text own ha (by omega)
  obtain ⟨q, hq, hqt⟩ := extractIpPortion_text other hb (by omega)
  rw [hown] at hp hpt
  rw [hother] at hq hqt
  simp [flag, hp, hq, hpt, hqt]

/-- The arrays are never left, whatever the addresses, and compare as far as they reach. For
addresses of one scheme that fit, the flag says whether the hosts are the same. -/
theorem flag_same_node (own other : Text) (hown : own.length = 128) (hother : other.length = 128) :
    (∀ a b, nul ∉ a → nul ∉ b →
      flag a b own other = some (decide ((node a).take 127 = (node b).take 127))) ∧
    ∀ scheme host host' port port', nul ∉ fullAddress scheme host port →
      nul ∉ fullAddress scheme host' port' → ':' ∉ scheme → ':' ∉ host → ':' ∉ host' →
      scheme.length + host.length + 4 ≤ 127 → scheme.length + host'.length + 4 ≤ 127 →
      flag (fullAddress scheme host port) (fullAddress scheme host' port') own other =
        some (decide (host = host')) := by
  refine ⟨fun a b ha hb ↦ flag_eq ha hb hown hother, ?_⟩
  intro scheme host host' port port' ha hb hs hh hh' hfit hfit'
  rw [flag_eq ha hb hown hother, node_fullAddress hs hh, node_fullAddress hs hh',
    List.take_of_length_le (by simp; omega), List.take_of_length_le (by simp; omega)]
  simp

/-- Two clients of one node, with different ports. -/
theorem flag_same_node_ports : flag (fullAddress ['t', 'c', 'p'] ['1', '.', '2'] ['7', '0'])
    (fullAddress ['t', 'c', 'p'] ['1', '.', '2'] ['8', '1']) (List.replicate 128 'x')
    (List.replicate 128 'y') = some true := by
  have hboth := flag_same_node (List.replicate 128 'x') (List.replicate 128 'y')
    List.length_replicate List.length_replicate
  exact hboth.2 ['t', 'c', 'p'] ['1', '.', '2'] ['1', '.', '2'] ['7', '0'] ['8', '1']
    (by decide) (by decide) (by decide) (by decide) (by decide) (by decide) (by decide)

end Addresses

section Lines

/-- `log_info_t`. The three strings are arrays of 256 characters. -/
structure LogInfo where
  filepath : Text
  request : Text
  flag : ℤ
  clientRank : ℤ
  serverRank : ℤ
  expn : Text
  nEpoch : ℤ
  nBatch : ℤ
  tvSec : ℕ
  tvUsec : ℕ

/-- What a line says. -/
@[ext]
structure LogRecord where
  filepath : Text
  request : Text
  flag : ℤ
  clientRank : ℤ
  serverRank : ℤ
  expn : Text
  nEpoch : ℤ
  nBatch : ℤ
  tvSec : ℕ
  tvUsec : ℕ
  deriving DecidableEq

/-- What `%s` finds in the arrays. Behind `filepath` lies `request`. -/
def LogInfo.record (info : LogInfo) : Option LogRecord := do
  let filepath ← text (info.filepath ++ info.request)
  let request ← text info.request
  let expn ← text info.expn
  return { info with filepath, request, expn }

/-- `%06ld`. -/
def padded (n : ℕ) : Text :=
  List.replicate (6 - (Nat.toDigits 10 n).length) '0' ++ Nat.toDigits 10 n

def LogRecord.fields (r : LogRecord) : List Text :=
  [r.filepath, r.request, Interception.decimal r.flag, Interception.decimal r.clientRank,
    Interception.decimal r.serverRank, r.expn, Interception.decimal r.nEpoch,
    Interception.decimal r.nBatch, Nat.toDigits 10 r.tvSec ++ '.' :: padded r.tvUsec]

def bracketed (s : Text) : Text := '[' :: s ++ [']']

/-- The line that `logging_info` appends. -/
def LogRecord.line (r : LogRecord) : Text := r.fields.flatMap bracketed ++ ['\n']

/-- No string of the record holds the bracket that ends it. -/
def LogRecord.Plain (r : LogRecord) : Prop :=
  ']' ∉ r.filepath ∧ ']' ∉ r.request ∧ ']' ∉ r.expn

instance (r : LogRecord) : Decidable r.Plain :=
  inferInstanceAs (Decidable (']' ∉ r.filepath ∧ ']' ∉ r.request ∧ ']' ∉ r.expn))

theorem append_cons_inj {s s' t t' : Text} {c : Char} (hs : c ∉ s) (hs' : c ∉ s')
    (h : s ++ c :: t = s' ++ c :: t') : s = s' ∧ t = t' := by
  induction s generalizing s' with
  | nil =>
    cases s' with
    | nil => exact ⟨rfl, (List.cons.inj h).2⟩
    | cons d s' => exact absurd (List.cons.inj h).1 fun he ↦ hs' (he ▸ List.mem_cons_self)
  | cons d s ih =>
    cases s' with
    | nil => exact absurd (List.cons.inj h).1 fun he ↦ hs (he ▸ List.mem_cons_self)
    | cons d' s' =>
      obtain ⟨rfl, hrest⟩ := List.cons.inj h
      obtain ⟨rfl, rfl⟩ := ih (fun hm ↦ hs (List.mem_cons_of_mem _ hm))
        (fun hm ↦ hs' (List.mem_cons_of_mem _ hm)) hrest
      exact ⟨rfl, rfl⟩

/-- As many bracketed fields in front of two texts are the same fields. -/
theorem bracketed_inj {fs gs : List Text} {s t : Text} (hlen : fs.length = gs.length)
    (hf : ∀ f ∈ fs, ']' ∉ f) (hg : ∀ g ∈ gs, ']' ∉ g)
    (h : fs.flatMap bracketed ++ s = gs.flatMap bracketed ++ t) : fs = gs ∧ s = t := by
  induction fs generalizing gs with
  | nil =>
    obtain rfl := List.length_eq_zero_iff.mp hlen.symm
    exact ⟨rfl, h⟩
  | cons f fs ih =>
    cases gs with
    | nil => simp at hlen
    | cons g gs =>
      simp only [List.flatMap_cons, bracketed, List.cons_append, List.append_assoc,
        List.cons.injEq, true_and, List.nil_append] at h
      obtain ⟨rfl, hrest⟩ := append_cons_inj (hf f List.mem_cons_self) (hg g List.mem_cons_self) h
      obtain ⟨rfl, rfl⟩ := ih (Nat.succ_injective hlen)
        (fun x hx ↦ hf x (List.mem_cons_of_mem _ hx))
        (fun x hx ↦ hg x (List.mem_cons_of_mem _ hx)) hrest
      exact ⟨rfl, rfl⟩

theorem decimal_injective : Function.Injective Interception.decimal := by
  intro m n h
  have hm := AddressLookup.number_decimal (z := m) (t := []) (by simp [Scan.Ends])
  have hn := AddressLookup.number_decimal (z := n) (t := []) (by simp [Scan.Ends])
  rw [h, hn] at hm
  simpa using hm.symm

theorem toDigits_of_mem {c : Char} {n : ℕ} (h : c ∈ Nat.toDigits 10 n) : c.isDigit :=
  Nat.isDigit_of_mem_toDigits (by omega) (by omega) h

theorem not_mem_decimal {c : Char} (hdigit : ¬c.isDigit) (hminus : c ≠ '-') (z : ℤ) :
    c ∉ Interception.decimal z := by
  cases z with
  | ofNat n => exact fun h ↦ hdigit (toDigits_of_mem h)
  | negSucc n =>
    intro h
    obtain h | h := List.mem_cons.mp h
    · exact hminus h
    · exact hdigit (toDigits_of_mem h)

theorem padded_injective : Function.Injective padded := by
  have hzeros (k : ℕ) (s : Text) :
      Nat.ofDigitChars 10 (List.replicate k '0' ++ s) 0 = Nat.ofDigitChars 10 s 0 := by
    induction k with
    | zero => rfl
    | succ k ih =>
      rw [List.replicate_succ, List.cons_append, Nat.ofDigitChars_cons]
      exact ih
  intro m n h
  have hval := congrArg (fun s ↦ Nat.ofDigitChars 10 s 0) h
  simpa [padded, hzeros] using hval

variable {r r' : LogRecord}

theorem fields_plain (h : r.Plain) : ∀ f ∈ r.fields, ']' ∉ f := by
  obtain ⟨hpath, hrequest, hexpn⟩ := h
  have hdecimal (z : ℤ) : ']' ∉ Interception.decimal z := not_mem_decimal (by decide) (by decide) z
  have hclock : ']' ∉ Nat.toDigits 10 r.tvSec ++ '.' :: padded r.tvUsec := by
    intro hmem
    simp only [padded, List.mem_append, List.mem_cons, List.mem_replicate] at hmem
    rcases hmem with hmem | hmem | ⟨-, hmem⟩ | hmem
    · exact absurd (toDigits_of_mem hmem) (by decide)
    · exact absurd hmem (by decide)
    · exact absurd hmem (by decide)
    · exact absurd (toDigits_of_mem hmem) (by decide)
  simp only [LogRecord.fields, List.forall_mem_cons, List.not_mem_nil, false_implies,
    implies_true, and_true]
  exact ⟨hpath, hrequest, hdecimal _, hdecimal _, hdecimal _, hexpn, hdecimal _, hdecimal _, hclock⟩

theorem fields_injective (h : r.fields = r'.fields) : r = r' := by
  have hdot (n : ℕ) : '.' ∉ Nat.toDigits 10 n := fun hm ↦
    absurd (toDigits_of_mem hm) (by decide)
  simp only [LogRecord.fields, List.cons.injEq, and_true] at h
  obtain ⟨hpath, hrequest, hflag, hclient, hserver, hexpn, hepoch, hbatch, hclock⟩ := h
  obtain ⟨hsec, husec⟩ := append_cons_inj (hdot _) (hdot _) hclock
  exact LogRecord.ext hpath hrequest (decimal_injective hflag) (decimal_injective hclient)
    (decimal_injective hserver) hexpn (decimal_injective hepoch) (decimal_injective hbatch)
    (LivePlacement.toStr_injective hsec) (padded_injective husec)

theorem line_inj {s t : Text} (hr : r.Plain) (hr' : r'.Plain) (h : r.line ++ s = r'.line ++ t) :
    r = r' ∧ s = t := by
  unfold LogRecord.line at h
  rw [List.append_assoc, List.append_assoc] at h
  have hlen : r.fields.length = r'.fields.length := rfl
  obtain ⟨hfields, hrest⟩ := bracketed_inj hlen (fields_plain hr) (fields_plain hr') h
  exact ⟨fields_injective hfields, (List.cons.inj hrest).2⟩

theorem lines_inj {rs rs' : List LogRecord} (h : ∀ r ∈ rs, r.Plain) (h' : ∀ r ∈ rs', r.Plain)
    (he : rs.flatMap LogRecord.line = rs'.flatMap LogRecord.line) : rs = rs' := by
  have hne (r : LogRecord) (s : Text) : r.line ++ s ≠ [] := by simp [LogRecord.line]
  induction rs generalizing rs' with
  | nil =>
    cases rs' with
    | nil => rfl
    | cons r' rs' => exact absurd he.symm (hne _ _)
  | cons r rs ih =>
    cases rs' with
    | nil => exact absurd he (hne _ _)
    | cons r' rs' =>
      obtain ⟨rfl, hrest⟩ := line_inj (h r List.mem_cons_self) (h' r' List.mem_cons_self) he
      rw [ih (fun x hx ↦ h x (List.mem_cons_of_mem _ hx))
        (fun x hx ↦ h' x (List.mem_cons_of_mem _ hx)) hrest]

/-- A log determines its records, as long as none of their strings holds a closing bracket. -/
theorem log_determines_records :
    Set.InjOn (List.flatMap LogRecord.line) {rs | ∀ r ∈ rs, r.Plain} :=
  fun _ h _ h' he ↦ lines_inj h h' he

-- with brackets in them, two records have one line
example : LogRecord.line ⟨['a', ']', '[', 'b'], ['c'], 0, 0, 0, [], -1, -1, 0, 0⟩ =
    LogRecord.line ⟨['a'], ['b', ']', '[', 'c'], 0, 0, 0, [], -1, -1, 0, 0⟩ := by decide

end Lines

section OpenRequests

/-- The record of `ftc_client_comm_gen_open_rpc`, over the arrays of its stack frame. -/
def clientOpenInfo (path : Text) (info : LogInfo) : Option LogInfo := do
  let filepath ← strncpy info.filepath path 256
  let request ← strncpy info.request ['o', 'p', 'e', 'n'] 256
  let expn ← strncpy info.expn ['C', 'R', 'e', 'q', 'u', 'e', 's', 't'] 256
  return { info with filepath, request, expn }

/-- The record with which `ftc_open_rpc_handler` begins. -/
def serverOpenInfo (path : Text) (info : LogInfo) : Option LogInfo := do
  let filepath ← (strncpy info.filepath path 255).bind (store · 255 nul)
  let request ← (strncpy info.request ['o', 'p', 'e', 'n'] 255).bind (store · 255 nul)
  let expn ← (strncpy info.expn ['S', 'R', 'e', 'c', 'e', 'i', 'v', 'e'] 255).bind (store · 255 nul)
  return { info with filepath, request, expn }

/-- The path that a line shows. -/
def shownPath (info : Option LogInfo) : Option Text :=
  (info.bind LogInfo.record).map LogRecord.filepath

structure LogInfo.Sized (info : LogInfo) : Prop where
  filepath : info.filepath.length = 256
  request : info.request.length = 256
  expn : info.expn.length = 256

variable {info info' : LogInfo} {path : Text}

/-- A string that fits is copied whole, and its array holds it. -/
theorem strncpy_text {cells : Text} (src : Text) (hsrc : nul ∉ src) (hlen : src.length < 256)
    (hcells : cells.length = 256) :
    ∃ b, strncpy cells src 256 = some b ∧ text b = some src := by
  obtain ⟨rest, hcopy, -⟩ := strncpy_short hlen hcells.ge
  exact ⟨_, hcopy, text_append_nul hsrc⟩

theorem shownPath_client (hsized : info.Sized) (hpath : nul ∉ path) :
    shownPath (clientOpenInfo path info) =
      some (if path.length < 256 then path else path.take 256 ++ ['o', 'p', 'e', 'n']) := by
  obtain ⟨request, hr, hrt⟩ := strncpy_text ['o', 'p', 'e', 'n'] (by decide) (by decide)
    hsized.request
  obtain ⟨expn, he, het⟩ := strncpy_text ['C', 'R', 'e', 'q', 'u', 'e', 's', 't']
    (by decide) (by decide) hsized.expn
  by_cases hlen : path.length < 256
  · obtain ⟨rest, hf, -⟩ := strncpy_short hlen hsized.filepath.ge
    have hft : text (path ++ nul :: rest ++ request) = some path := by
      rw [List.append_assoc, List.cons_append, text_append_nul hpath]
    simp [shownPath, clientOpenInfo, LogInfo.record, hr, hrt, he, het, hf, ← hft, hlen]
  · have hf := strncpy_long (Nat.not_lt.mp hlen) hsized.filepath.ge
    rw [← hsized.filepath, List.drop_length, List.append_nil] at hf
    rw [hsized.filepath] at hf
    have hft : text (path.take 256 ++ request) = some (path.take 256 ++ ['o', 'p', 'e', 'n']) := by
      rw [text_append fun hm ↦ hpath (List.mem_of_mem_take hm), hrt]
      rfl
    simp [shownPath, clientOpenInfo, LogInfo.record, hr, hrt, he, het, hf, hft, hlen]

theorem shownPath_server (hsized : info.Sized) (hpath : nul ∉ path) :
    shownPath (serverOpenInfo path info) = some (path.take 255) := by
  obtain ⟨filepath, hf, -, hft⟩ := strncpy_store info.filepath 255 hpath
    (by rw [hsized.filepath]; omega)
  obtain ⟨request, hr, -, hrt⟩ := strncpy_store info.request 255
    (show nul ∉ ['o', 'p', 'e', 'n'] by decide) (by rw [hsized.request]; omega)
  obtain ⟨expn, he, -, het⟩ := strncpy_store info.expn 255
    (show nul ∉ ['S', 'R', 'e', 'c', 'e', 'i', 'v', 'e'] by decide) (by rw [hsized.expn]; omega)
  simp only [shownPath, serverOpenInfo, hf, hr, he, Option.bind_some, Option.bind_eq_bind,
    Option.pure_def, LogInfo.record, text_extend hft request, hrt, het, Option.map_some]

/-- The lines that a client and its server write for an open request show the same path
exactly if it is shorter than their arrays. A longer path runs on into the next field in
the client's line, and is cut off in the server's. -/
theorem open_lines_agree (path : Text) (hpath : nul ∉ path) (info info' : LogInfo)
    (hclient : info.Sized) (hserver : info'.Sized) :
    shownPath (clientOpenInfo path info) =
        some (if path.length < 256 then path else path.take 256 ++ ['o', 'p', 'e', 'n']) ∧
      shownPath (serverOpenInfo path info') = some (path.take 255) ∧
      (shownPath (clientOpenInfo path info) = some path ↔
        path.length < 256 ∨ path.drop 256 = ['o', 'p', 'e', 'n']) ∧
      (shownPath (clientOpenInfo path info) = shownPath (serverOpenInfo path info') ↔
        path.length < 256) := by
  have hshown := shownPath_client hclient hpath
  have hcut := shownPath_server hserver hpath
  refine ⟨hshown, hcut, ?_⟩
  rw [hshown, hcut]
  by_cases hlen : path.length < 256
  · simp only [hlen, ↓reduceIte, Option.some.injEq, iff_true, true_or, true_and]
    exact (List.take_of_length_le (by omega)).symm
  · have hwhole : path.take 256 ++ ['o', 'p', 'e', 'n'] = path ↔
        path.drop 256 = ['o', 'p', 'e', 'n'] := by
      constructor
      · intro he
        have hsplit := he.trans (List.take_append_drop 256 path).symm
        exact (List.append_cancel_left hsplit).symm
      · intro he
        rw [← he, List.take_append_drop]
    have hne : path.take 256 ++ ['o', 'p', 'e', 'n'] ≠ path.take 255 := by
      intro he
      have hl := congrArg List.length he
      simp only [List.length_append, List.length_take, List.length_cons, List.length_nil] at hl
      omega
    simp only [hlen, ↓reduceIte, Option.some.injEq, iff_false, false_or]
    exact ⟨hwhole, hne⟩

theorem open_lines_agree_short :
    shownPath (clientOpenInfo samplePath ⟨List.replicate 256 'x', List.replicate 256 'x', 0, 0, 0,
        List.replicate 256 'x', 0, 0, 0, 0⟩) =
      shownPath (serverOpenInfo samplePath ⟨List.replicate 256 'y', List.replicate 256 'y', 0, 0,
        0, List.replicate 256 'y', 0, 0, 0, 0⟩) :=
  (open_lines_agree samplePath (by decide) _ _
    ⟨List.length_replicate, List.length_replicate, List.length_replicate⟩
    ⟨List.length_replicate, List.length_replicate, List.length_replicate⟩).2.2.2.mpr (by decide)

end OpenRequests

end FTCache.LogRecords
