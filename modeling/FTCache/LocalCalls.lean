import FTCache.Reference

namespace FTCache.LocalCalls

open Posix Words Client Protocol Reference

variable {C : Type} {cfg : Config} {servers : Host → Server} {cl cl' : Client} {t t' : Table Path}

/-- A call on an untracked descriptor moves the kernel's and the reference's alike. -/
theorem mirror_local (h : Mirror cfg servers cl t) {fd : Fd} (hfd : cl.fdMap fd = none)
    (hm : cl'.fdMap = cl.fdMap) (hr : cl'.fdRedirMap = cl.fdRedirMap)
    (ht : ∀ j, j ≠ fd → t' j = t j) (hk : ∀ j, j ≠ fd → cl'.kernel j = cl.kernel j)
    (hsame : t' fd = cl'.kernel fd) : Mirror cfg servers cl' t' := by
  refine ⟨fun j path s hp hs ↦ ?_, fun j hp ↦ ?_⟩
  · rw [hm] at hp
    rw [hr] at hs
    have hj : j ≠ fd := by
      intro he
      subst he
      simp [hfd] at hp
    rw [ht j hj]
    exact h.tracked j path s hp hs
  · by_cases hj : j = fd
    · rw [hj, hsame]
    · rw [ht j hj, hk j hj]
      exact h.untracked j (hm ▸ hp)

theorem mirror_close (h : Mirror cfg servers cl t) (fd : Fd) (hm : cl'.fdMap = cl.fdMap.erase fd)
    (hr : ∀ j, j ≠ fd → cl'.fdRedirMap j = cl.fdRedirMap j)
    (hk : cl'.kernel = cl.kernel.erase fd) : Mirror cfg servers cl' (t.erase fd) := by
  refine ⟨fun j path s hp hs ↦ ?_, fun j hp ↦ ?_⟩
  · by_cases hj : j = fd
    · simp [hm, hj] at hp
    · rw [hr j hj] at hs
      simpa [hj] using h.tracked j path s (by simpa [hm, hj] using hp) hs
  · by_cases hj : j = fd
    · simp [hk, hj]
    · simpa [hk, hj] using h.untracked j (by simpa [hm, hj] using hp)

theorem finishRead_local (h : Mirror cfg servers cl t) {fd : Fd} (hfd : cl.fdMap fd = none)
    (buf : Addr) {count : ℕ} (hc : count < 2 ^ 31) :
    (cl.finishRead cfg fd buf count (-1)).2 = (posix cfg t (.read fd buf count)).2 ∧
      Mirror cfg servers (cl.finishRead cfg fd buf count (-1)).1
        (posix cfg t (.read fd buf count)).1 := by
  have hneg : int32 (-1) = -1 := int32_of_range (by omega) (by omega)
  obtain ⟨hout, hmoved⟩ := read_congr cfg.files (h.untracked fd hfd) count
  simp only [finishRead, hneg, Int.reduceNeg, Left.neg_neg_iff, Int.zero_lt_one, ↓reduceIte, posix,
    realRead, transferResult, hout]
  refine ⟨?_, mirror_local h hfd rfl rfl (fun j hj ↦ read_frame fd count hj)
    (fun j hj ↦ read_frame fd count hj) hmoved⟩
  cases hr : (read cfg.files cl.kernel fd count).1 with
  | none => simp [hneg]
  | some bs =>
    have hlen := read_length_le hr
    simp [int32_natCast (show bs.length < 2 ^ 31 by omega)]

theorem finishPread_local (h : Mirror cfg servers cl t) {fd : Fd} (hfd : cl.fdMap fd = none)
    (buf : Addr) (count : ℕ) (offset : ℤ) :
    (cl.finishPread cfg fd buf count offset (-1)).2 = (posix cfg t (.pread fd buf count offset)).2 ∧
      Mirror cfg servers (cl.finishPread cfg fd buf count offset (-1)).1
        (posix cfg t (.pread fd buf count offset)).1 := by
  have hout := pread_congr cfg.files (h.untracked fd hfd) count offset
  simp only [finishPread, Int.reduceNeg, Left.neg_neg_iff, Int.zero_lt_one, ↓reduceIte, posix,
    realPread, transferResult, hout]
  refine ⟨?_, h.congr rfl rfl rfl⟩
  cases hr : pread cfg.files cl.kernel fd count offset <;> simp

theorem finishLseek_local (h : Mirror cfg servers cl t) {fd : Fd} (hfd : cl.fdMap fd = none)
    (offset whence ret : ℤ) :
    (cl.finishLseek cfg fd offset whence ret).2 = (posix cfg t (.lseek fd offset whence)).2 ∧
      Mirror cfg servers (cl.finishLseek cfg fd offset whence ret).1
        (posix cfg t (.lseek fd offset whence)).1 := by
  obtain ⟨hout, hmoved⟩ := lseek_congr cfg.files (h.untracked fd hfd) offset whence
  simp only [finishLseek, ftcFileTracked, hfd, Option.isSome_none, Bool.false_eq_true, ↓reduceIte,
    posix, realLseek, hout, true_and]
  exact mirror_local h hfd rfl rfl (fun j hj ↦ lseek_frame fd offset whence hj)
    (fun j hj ↦ lseek_frame fd offset whence hj) hmoved

theorem started_none_local {net : PMap ℕ (Flight C)} {c : C} (hok : ClientOk cfg net c cl)
    (h : Mirror cfg servers cl t) {k : Call} {cell : Addr} (hs : Started cfg cl cell k cl' none)
    (hin : InRange cfg t k) :
    (cl'.finishCall cfg k (-1)).2 = (posix cfg t k).2 ∧
      Mirror cfg servers (cl'.finishCall cfg k (-1)).1 (posix cfg t k).1 := by
  -- with no host given up, only untracked descriptors are served locally
  cases hs with
  | openUntracked path p flags fd hp hg ht =>
    have hfd := (untracked_of_granted hok hg).1
    have hgt : Grants cfg.files t p fd := ⟨hg.1, hg.2.1, by rw [h.untracked fd hfd, hg.2.2]⟩
    rw [posix_open hp hgt]
    exact ⟨rfl, mirror_local h hfd rfl rfl (fun j hj ↦ by simp [hj])
      (fun j hj ↦ by simp [finishCall, hj]) (by simp [finishCall])⟩
  | openOver path p flags fd hp hg ht ho => exact absurd ho (overLimit_false hok _)
  | transferLocal k fd buf count offset hk hl =>
    have hfd := untracked_of_overLimit hok hl
    cases k with
    | read fd' buf' count' =>
      obtain ⟨rfl, -⟩ : fd' = fd ∧ _ := by simpa [Call.transfer] using hk
      exact finishRead_local h hfd buf' hin.2
    | pread fd' buf' count' offset' =>
      obtain ⟨rfl, -⟩ : fd' = fd ∧ _ := by simpa [Call.transfer] using hk
      exact finishPread_local h hfd buf' count' offset'
    | openFile => simp [Call.transfer] at hk
    | lseek => simp [Call.transfer] at hk
    | close => simp [Call.transfer] at hk
  | lseekLocal fd offset whence hp => exact finishLseek_local h hp offset whence _
  | closeLocal fd hl =>
    refine ⟨?_, mirror_close h fd rfl (fun _ _ ↦ rfl) rfl⟩
    simp [finishCall, realClose, posix, h.untracked fd (untracked_of_overLimit hok hl)]

/-- Forwarding a request moves no descriptor; an open adds one at its beginning. -/
theorem started_some_local {net : PMap ℕ (Flight C)} {c : C} (hok : ClientOk cfg net c cl)
    (hb : cl.blocked = none) (h : Mirror cfg servers cl t) {k : Call} {cell : Addr} {s : Sent}
    (hs : Started cfg cl cell k cl' (some s)) (hcb : s.callback ≠ .none) :
    Mirror cfg servers cl' t ∧ ∀ fd, opens k fd → ∃ q, cl'.fdMap fd = some q ∧
      posix cfg t k = (t.insert fd ⟨q, 0⟩, ⟨fd, []⟩) := by
  have hq := quiet_of_unblocked hok hb
  have htouch {fd : Fd} {p : Path} (hp : cl.fdMap fd = some p) :
      cl.fdRedirMap.touch fd = cl.fdRedirMap := by
    obtain ⟨r, hr⟩ := Option.isSome_iff_exists.mp (hq.complete fd (by simp [hp]))
    exact PMap.touch_of_some hr
  cases hs with
  | openSent path p flags fd cache hp hg ht ho =>
    obtain ⟨hfd, hredir⟩ := untracked_of_granted hok hg
    have hgt : Grants cfg.files t p fd := ⟨hg.1, hg.2.1, by rw [h.untracked fd hfd, hg.2.2]⟩
    refine ⟨⟨fun j path' s hj hr ↦ ?_, fun j hj ↦ ?_⟩, ?_⟩
    · have hne : j ≠ fd := by
        intro he
        subst he
        simp [hredir] at hr
      exact h.tracked j path' s (by simpa [hne] using hj) hr
    · have hne : j ≠ fd := by
        intro he
        subst he
        simp at hj
      simpa [hne] using h.untracked j (by simpa [hne] using hj)
    · rintro j rfl
      exact ⟨p, by simp, posix_open hp hgt⟩
  | transferSent k p fd buf count offset cache hk hp ho =>
    exact ⟨h.congr rfl (htouch hp) rfl, fun j ho ↦ absurd ho (not_opens_of_transfer hk j)⟩
  | lseekSent p fd offset whence cache hp =>
    exact ⟨h.congr rfl (htouch hp) rfl, by simp [opens]⟩
  | closeSent => exact absurd rfl hcb

theorem finish_value {k : Call} {out : ℤ} (hv : Value cl k out (posix cfg t k).2)
    (htracked : (cl.fdMap k.fd).isSome) (hk : ∀ fd, k ≠ .close fd)
    (hopen : ∀ fd, opens k fd → (posix cfg t k).2 = ⟨fd, []⟩) :
    cl.finishCall cfg k out = (cl, (posix cfg t k).2) := by
  cases k with
  | openFile path flags fd => rw [hopen fd rfl, finishCall]
  | close fd => exact absurd rfl (hk fd)
  | read fd buf count =>
    obtain ⟨⟨hret, h0, hlt⟩, hbytes⟩ := hv
    have hint : int32 out = out := int32_of_range (by omega) hlt
    simp only [finishCall, finishRead, hint, Int.not_lt.mpr h0, ↓reduceIte, transferResult]
    rw [hbytes, hret]
  | pread fd buf count offset =>
    obtain ⟨⟨hret, h0, hlt⟩, hbytes⟩ := hv
    simp only [finishCall, finishPread, Int.not_lt.mpr h0, ↓reduceIte, transferResult]
    rw [hbytes, hret]
  | lseek fd offset whence =>
    simp only [finishCall, finishLseek, ftcFileTracked, show (cl.fdMap fd).isSome from htracked,
      ↓reduceIte]
    rw [show out = _ from hv]
    rfl

end FTCache.LocalCalls
