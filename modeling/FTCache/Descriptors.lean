import FTCache.NvmeCache
import FTCache.World

namespace FTCache.Descriptors

open Posix World NvmeCache

variable {job : Job}

/-- The descriptor `s` is open on a file with the contents of `p`, and nobody writes to it. -/
def Backs (cfg : Config) (srv : Server) (s : Fd) (p : Path) : Prop :=
  ∃ q n b, srv.fds s = some ⟨q, n⟩ ∧ srv.files q = some b ∧ cfg.files p = some b ∧ Settled srv q

structure ServerOk (job : Job) (h : Host) (srv : Server) : Prop where
  own_open : ∀ s, (job.own h s).isSome → (srv.fds s).isSome
  nonneg : ∀ s, (srv.fds s).isSome → 0 ≤ s
  backed : ∀ s p, srv.fdToPath s = some p → s ≠ -1 → job.own h s = none ∧ Backs job.cfg srv s p
  keyed : ∀ s, (srv.fds s).isSome → job.own h s = none → (srv.fdToPath s).isSome
  sound : Sound job.cfg.files srv

variable {h : Host} {srv s' : Server}

/-- Reading and seeking move descriptors, and leave the rest of the server alone. -/
structure Moved (srv s' : Server) : Prop where
  view : s'.cacheView = srv.cacheView
  fdToPath : s'.fdToPath = srv.fdToPath
  file : ∀ s, (s'.fds s).map Description.file = (srv.fds s).map Description.file

theorem Moved.refl (srv : Server) : Moved srv srv := ⟨rfl, rfl, fun _ ↦ rfl⟩

theorem isSome_of_file (hf : ∀ s, (s'.fds s).map Description.file =
    (srv.fds s).map Description.file) (s : Fd) : (s'.fds s).isSome = (srv.fds s).isSome := by
  simpa using congrArg Option.isSome (hf s)

/-- What backs a descriptor is untouched as long as its file and the cache are. -/
theorem Backs.of_view {s : Fd} {p : Path} (hb : Backs job.cfg srv s p)
    (hv : s'.cacheView = srv.cacheView)
    (hfile : (s'.fds s).map Description.file = (srv.fds s).map Description.file) :
    Backs job.cfg s' s p := by
  obtain ⟨hfiles, -, hmover⟩ := Server.cacheView_eq hv
  obtain ⟨q, n, b, hfd, hq, hb, hset⟩ := hb
  rw [hfd] at hfile
  obtain ⟨⟨q', m⟩, hd, hdq⟩ := Option.map_eq_some_iff.mp hfile
  obtain rfl : q' = q := hdq
  exact ⟨q', m, b, hd, by rwa [hfiles], hb, by simpa [Settled, hmover] using hset⟩

theorem ServerOk.moved (ok : ServerOk job h srv) (hm : Moved srv s') : ServerOk job h s' := by
  have hsome := isSome_of_file hm.file
  refine ⟨?_, ?_, fun s p hp hs ↦ ?_, ?_, ok.sound.of_view hm.view⟩
  · simpa only [hsome] using ok.own_open
  · simpa only [hsome] using ok.nonneg
  · rw [hm.fdToPath] at hp
    obtain ⟨hown, hbacks⟩ := ok.backed s p hp hs
    exact ⟨hown, hbacks.of_view hm.view (hm.file s)⟩
  · simpa only [hsome, hm.fdToPath] using ok.keyed

/-- The mover never writes to a file that backs a descriptor. -/
theorem ServerOk.mover (ok : ServerOk job h srv) (hm : Server.Moves srv s')
    (hfds : s'.fds = srv.fds) (hmap : s'.fdToPath = srv.fdToPath) : ServerOk job h s' := by
  refine ⟨by simpa only [hfds] using ok.own_open, by simpa only [hfds] using ok.nonneg,
    fun s p hp hs ↦ ?_, by simpa only [hfds, hmap] using ok.keyed, moves_sound ok.sound hm⟩
  rw [hmap] at hp
  obtain ⟨hown, q, n, b, hfd, hq, hb, hset⟩ := ok.backed s p hp hs
  have hkept := files_kept hm hq hset
  exact ⟨hown, q, n, b, by rw [hfds, hfd], hkept.1, hb, hkept.2⟩

theorem sysOpen_cases (srv : Server) (opened : Option Fd) (p : Path) :
    srv.sysOpen opened p = (-1, srv.fds) ∨ ∃ fd, 0 ≤ fd ∧ srv.fds fd = none ∧
      srv.sysOpen opened p = (fd, srv.fds.insert fd ⟨p, 0⟩) := by
  unfold Server.sysOpen
  split
  · exact .inl rfl
  · split
    case isTrue hg => exact .inr ⟨_, hg.2.1, hg.2.2, rfl⟩
    case isFalse => exact .inl rfl

theorem ServerOk.free (ok : ServerOk job h srv) {s : Fd} (hs : srv.fds s = none) :
    job.own h s = none ∧ (s ≠ -1 → srv.fdToPath s = none) := by
  refine ⟨?_, fun hne ↦ ?_⟩
  · by_contra hown
    have hopen := ok.own_open s (Option.isSome_iff_ne_none.mpr hown)
    simp [hs] at hopen
  · by_contra hk
    obtain ⟨p, hp⟩ := Option.ne_none_iff_exists'.mp hk
    obtain ⟨-, q, n, c, hfd, -⟩ := ok.backed s p hp hne
    simp [hs] at hfd

theorem ServerOk.opened (ok : ServerOk job h srv) {inp : OpenIn} {env : Env} {out : ℤ}
    (hsrc : (job.cfg.files inp.path).isSome)
    (ho : srv.ftcOpenRpcHandler inp env = .responded s' out) :
    ServerOk job h s' ∧ s'.fdToPath = srv.fdToPath.insert out inp.path ∧
      (out ≠ -1 → srv.fdToPath out = none) := by
  obtain ⟨b, hb⟩ := Option.isSome_iff_exists.mp hsrc
  obtain ⟨hq, hset⟩ := redir_source ok.sound hb
  simp only [Server.ftcOpenRpcHandler, Handled.responded.injEq] at ho
  obtain ⟨rfl, rfl⟩ := ho
  rcases sysOpen_cases srv env.opened (srv.redirPath inp.path) with he | ⟨fd, hnn, hfree, he⟩
  · refine ⟨⟨?_, ?_, fun s p hp hs ↦ ?_, fun s hs hown ↦ ?_, ok.sound.of_view rfl⟩, rfl, ?_⟩
    · simpa only [he] using ok.own_open
    · simpa only [he] using ok.nonneg
    · have hp' : srv.fdToPath s = some p := by simpa [he, hs] using hp
      obtain ⟨hown, hbacks⟩ := ok.backed s p hp' hs
      exact ⟨hown, hbacks.of_view rfl (by rw [he])⟩
    · have hk := ok.keyed s (by simpa only [he] using hs) hown
      by_cases hs1 : s = -1 <;> simp [he, hs1, hk]
    · simp [he]
  · obtain ⟨hown_fd, hnokey⟩ := ok.free hfree
    simp only [he]
    refine ⟨⟨fun s hs ↦ ?_, fun s hs ↦ ?_, fun s p hp hs ↦ ?_, fun s hs hown ↦ ?_,
      ok.sound.of_view rfl⟩, trivial, hnokey⟩
    · by_cases hso : s = fd <;> simp [hso, ok.own_open s hs]
    · by_cases hso : s = fd
      · rwa [hso]
      · exact ok.nonneg s (by simpa [hso] using hs)
    · by_cases hso : s = fd
      · subst s
        obtain rfl : inp.path = p := by simpa using hp
        exact ⟨hown_fd, srv.redirPath inp.path, 0, b, by simp, hq, hb, hset⟩
      · obtain ⟨hown, hbacks⟩ := ok.backed s p (by simpa [hso] using hp) hs
        exact ⟨hown, hbacks.of_view rfl (by simp [hso])⟩
    · by_cases hso : s = fd
      · simp [hso]
      · simpa [hso] using ok.keyed s (by simpa [hso] using hs) hown

theorem closed_open {inp : CloseIn} {env : Env}
    (ho : srv.ftcCloseRpcHandler inp env = .silent s') : (srv.fds inp.fd).isSome := by
  unfold Server.ftcCloseRpcHandler at ho
  split at ho
  case isTrue hg => exact hg.1
  case isFalse => cases ho

theorem ServerOk.closed (ok : ServerOk job h srv) {inp : CloseIn} {env : Env}
    (ho : srv.ftcCloseRpcHandler inp env = .silent s') (hown : job.own h inp.fd = none) :
    ServerOk job h s' ∧ s'.fdToPath = srv.fdToPath.erase inp.fd := by
  unfold Server.ftcCloseRpcHandler at ho
  split at ho
  case isFalse => cases ho
  case isTrue hg =>
    cases ho
    rw [PMap.erase_touch]
    refine ⟨⟨fun s hs ↦ ?_, fun s hs ↦ ?_, fun s p hp hs ↦ ?_, fun s hs hso ↦ ?_,
      ok.sound.of_view rfl⟩, rfl⟩
    · have hne : s ≠ inp.fd := by
        intro he
        subst he
        simp [hown] at hs
      simpa [hne] using ok.own_open s hs
    · by_cases hne : s = inp.fd
      · simp [hne] at hs
      · exact ok.nonneg s (by simpa [hne] using hs)
    · by_cases hne : s = inp.fd
      · simp [hne] at hp
      · obtain ⟨hos, hbacks⟩ := ok.backed s p (by simpa [hne] using hp) hs
        exact ⟨hos, hbacks.of_view rfl (by simp [hne])⟩
    · by_cases hne : s = inp.fd
      · simp [hne] at hs
      · simpa [hne] using ok.keyed s (by simpa [hne] using hs) hso

theorem sysRead_moved (srv : Server) (ok : Bool) (fd : Fd) (n : ℕ) :
    Moved srv { srv with fds := (srv.sysRead ok fd n).2 } := by
  refine ⟨rfl, rfl, fun s ↦ ?_⟩
  unfold Server.sysRead
  split
  · exact read_file fd n s
  · rfl

theorem readSequential_moved (srv : Server) (inp : RpcIn) (env : Env) :
    Moved srv { srv with fds := (srv.readSequential inp env).2 } := by
  unfold Server.readSequential
  split
  case h_1 bs fds he =>
    have hm := sysRead_moved srv env.firstRead inp.accessfd (Words.size64 inp.inputVal)
    rwa [he] at hm
  case h_2 => exact sysRead_moved ..

theorem startTransfer_moved {srv₀ : Server} (hm : Moved srv₀ srv) (inp : RpcIn)
    (r : Option Bytes) : Moved srv₀ ((Server.startTransfer srv inp r).after srv₀) := by
  simp only [Server.startTransfer]
  split
  · exact hm
  · exact ⟨rfl, rfl, fun _ ↦ rfl⟩

theorem transfer_moved (srv : Server) (inp : RpcIn) (env : Env) :
    Moved srv ((srv.ftcRpcHandler inp env).after srv) := by
  unfold Server.ftcRpcHandler
  split
  · split
    · exact startTransfer_moved (readSequential_moved srv inp env) _ _
    · split
      · exact .refl srv
      · exact startTransfer_moved (.refl srv) _ _
  · exact ⟨rfl, rfl, fun _ ↦ rfl⟩

theorem seek_moved (srv : Server) (inp : SeekIn) :
    Moved srv ((srv.ftcSeekRpcHandler inp).after srv) :=
  ⟨rfl, rfl, fun s ↦ lseek_file inp.fd inp.offset inp.whence s⟩

end FTCache.Descriptors
