import Shuriken.Fs.FileState
import Shuriken.Fs.Nested

/-!
# Which files are hashed alike

For a regular file the whole header is hashed. For a directory or a symlink it
is only its first eight bytes, which hold the low half of the file size and
nothing of the mode.
-/
namespace Shuriken
open Option LittleEndian List

theorem extraData_take (size : UInt64) (mode : UInt32) :
    (extraData size mode).take 8 = le32 (UInt32.ofNat kExtraDataSize) ++ leBytes 4 size.toNat := by
  rw [extraData, le64, leBytes_add 4 4, append_assoc, append_assoc, ← append_assoc,
    take_left' (by simp)]

theorem extraData_injective {size size' : UInt64} {mode mode' : UInt32}
    (h : extraData size mode = extraData size' mode') : size = size' ∧ mode = mode' := by
  obtain ⟨hsizes, hmodes⟩ := append_inj h (by simp)
  have hsize := congrArg read64 (append_cancel_left hsizes)
  have hmode := congrArg read32 hmodes
  rw [← append_nil (le64 size), ← append_nil (le64 size'), read64_le64, read64_le64] at hsize
  rw [← append_nil (le32 mode), ← append_nil (le32 mode'), read32_le32, read32_le32] at hmode
  exact ⟨hsize, hmode⟩

def Contents.hashRest (size : UInt64) (mode : UInt32) : Contents → Bytes
  | .directory entries => entries.flatMap FileSystem.dirEntryBytes
  | .symlink target => target
  | .file contents => (extraData size mode).drop 8 ++ contents
  | .other => []

theorem Contents.hashInput_eq {contents : Contents} (h : contents ≠ .other) (size : UInt64) (mode : UInt32) :
    contents.hashInput size mode = some ((extraData size mode).take 8 ++ contents.hashRest size mode) := by
  cases contents with
  | directory | symlink => rfl
  | file contents => rw [hashInput, hashRest, ← append_assoc, take_append_drop]
  | other => exact absurd rfl h

theorem Contents.hashInput_eq_iff {a b : Contents} (ha : a ≠ .other) (hb : b ≠ .other) {size size' : UInt64}
    {mode mode' : UInt32} : a.hashInput size mode = b.hashInput size' mode' ↔
      size.toNat % 2 ^ 32 = size'.toNat % 2 ^ 32 ∧ a.hashRest size mode = b.hashRest size' mode' := by
  rw [hashInput_eq ha, hashInput_eq hb, some_inj, extraData_take, extraData_take, append_assoc,
    append_assoc, append_cancel_left_eq]
  constructor
  · intro h
    obtain ⟨hsize, hrest⟩ := append_inj h (by rw [leBytes_length, leBytes_length])
    exact ⟨leBytes_eq_iff.mp hsize, hrest⟩
  · rintro ⟨hsize, hrest⟩
    rw [leBytes_eq_iff.mpr hsize, hrest]

/-- Files that are hashed alike and are not the same: two directories or two symlinks with the same
contents but for the mode or the high half of the size, or two files of different types. -/
def Contents.Confused (size size' : UInt64) (mode mode' : UInt32) (a b : Contents) : Prop :=
  size.toNat % 2 ^ 32 = size'.toNat % 2 ^ 32 ∧
    match a, b with
    | .file _, .file _ => False
    | .directory entries, .directory entries' => entries = entries' ∧ (size ≠ size' ∨ mode ≠ mode')
    | .symlink target, .symlink target' => target = target' ∧ (size ≠ size' ∨ mode ≠ mode')
    | a, b => a.hashRest size mode = b.hashRest size' mode'

theorem Contents.confused_iff {a b : Contents} (ha : a ≠ .other) (hb : b ≠ .other) (size size' : UInt64)
    (mode mode' : UInt32) :
    a.Confused size size' mode mode' b ↔
      a.hashInput size mode = b.hashInput size' mode' ∧ ¬ (size = size' ∧ mode = mode' ∧ a = b) := by
  have hfiles : ∀ c c' : Bytes, ¬ ((file c).hashInput size mode = (file c').hashInput size' mode' ∧
      ¬ (size = size' ∧ mode = mode' ∧ file c = file c')) := by
    rintro c c' ⟨hinput, hne⟩
    obtain ⟨hheader, rfl⟩ := append_inj (some_inj.mp hinput) (by simp [extraData])
    obtain ⟨hsize, hmode⟩ := extraData_injective hheader
    exact hne ⟨hsize, hmode, rfl⟩
  unfold Confused
  cases a with
  | other => exact absurd rfl ha
  | file c =>
    cases b with
    | other => exact absurd rfl hb
    | file c' => exact iff_of_false (fun h => h.2) (hfiles c c')
    | directory | symlink => simp [hashInput_eq_iff ha hb]
  | directory entries =>
    cases b with
    | other => exact absurd rfl hb
    | file c' => simp [hashInput_eq_iff ha hb]
    | directory entries' =>
      rw [hashInput_eq_iff ha hb, and_assoc]
      refine and_congr_right fun _ => ?_
      have hrest : hashRest size mode (directory entries) = hashRest size' mode' (directory entries') ↔
          entries = entries' := ⟨flatMap_dirEntryBytes_injective, fun h => h ▸ rfl⟩
      rw [hrest, directory.injEq]
      tauto
    | symlink target' => simp [hashInput_eq_iff ha hb]
  | symlink target =>
    cases b with
    | other => exact absurd rfl hb
    | file | directory => simp [hashInput_eq_iff ha hb]
    | symlink target' =>
      rw [hashInput_eq_iff ha hb, and_assoc, symlink.injEq]
      refine and_congr_right fun _ => ?_
      rw [show hashRest size mode (symlink target) = target from rfl,
        show hashRest size' mode' (symlink target') = target' from rfl]
      tauto

namespace FileView

structure Ordinary (v : FileView) : Prop where
  found : v.stat.result = 0
  kind : sIsReg v.stat.metadata.mode ∨ sIsDir v.stat.metadata.mode ∨ sIsLnk v.stat.metadata.mode

def Confused (v v' : FileView) : Prop :=
  (v.contentsFor v.fpStat.mode).Confused v.fpStat.size v'.fpStat.size v.fpStat.mode v'.fpStat.mode
    (v'.contentsFor v'.fpStat.mode)

theorem Ordinary.contentsFor_ne_other {v : FileView} (h : v.Ordinary) : v.contentsFor v.fpStat.mode ≠ .other := by
  rw [fpStat_of_found h.found, contentsFor_trackedMode, contentsFor]
  have hkind := h.kind
  split_ifs with hdir hlnk hreg
  · nofun
  · nofun
  · nofun
  · simp [hdir, hlnk, hreg] at hkind

theorem Ordinary.confused_iff {v v' : FileView} (h : v.Ordinary) (h' : v'.Ordinary) :
    v.Confused v' ↔ v.hashInput v.fpStat.size v.fpStat.mode = v'.hashInput v'.fpStat.size v'.fpStat.mode ∧
      v.state ≠ v'.state := by
  rw [Confused, Contents.confused_iff h.contentsFor_ne_other h'.contentsFor_ne_other, ne_eq, state_eq_iff]
  rfl

end FileView

/-- Files with equal hashes are the same, unless they are confused. -/
theorem fingerprint_hashes_identify {σ : Type} (F : FileSystem σ) {s s' : σ} {a b : Path} {hash hash' : Hash}
    (ha : (F.view s a).Ordinary) (hb : (F.view s' b).Ordinary) (hcf : F.CollisionFree {F.view s a, F.view s' b})
    (hhash : computeFingerprintHash F s (F.view s a).fpStat.size (F.view s a).fpStat.mode a = .ok hash)
    (hhash' : computeFingerprintHash F s' (F.view s' b).fpStat.size (F.view s' b).fpStat.mode b = .ok hash') :
    (hash = hash' → (F.view s a).state = (F.view s' b).state) ↔ ¬ (F.view s a).Confused (F.view s' b) := by
  have hinput := Contents.hashInput_eq ha.contentsFor_ne_other (F.view s a).fpStat.size (F.view s a).fpStat.mode
  have hinput' := Contents.hashInput_eq hb.contentsFor_ne_other (F.view s' b).fpStat.size (F.view s' b).fpStat.mode
  rw [ha.confused_iff hb, not_and, not_ne_iff]
  refine imp_congr_left ?_
  rw [computeFingerprintHash_ok F hhash, computeFingerprintHash_ok F hhash']
  constructor
  · intro h
    rw [FileView.hashInput, FileView.hashInput, hinput, hinput', some_inj]
    simp only [FileSystem.digest, FileView.hashInput, hinput, hinput'] at h
    exact hcf ⟨_, .inl rfl, hinput⟩ ⟨_, .inr rfl, hinput'⟩ h
  · intro h
    rw [FileSystem.digest, FileSystem.digest, h]

def twoFiles : FlatFiles := [([97], { ino := 1, contents := [120] }), ([98], { ino := 2, contents := [121] })]

theorem fingerprint_hashes_identify_files :
    ∃ hash hash', computeFingerprintHash flatFileSystem twoFiles 1 (trackedMode S_IFREG) [97] = .ok hash ∧
      computeFingerprintHash flatFileSystem twoFiles 1 (trackedMode S_IFREG) [98] = .ok hash' ∧
      ((hash = hash' → (twoFiles.view [97]).state = (twoFiles.view [98]).state) ↔
        ¬ (twoFiles.view [97]).Confused (twoFiles.view [98])) := by
  have hinput : ∀ v ∈ [twoFiles.view [97], twoFiles.view [98]], ∀ v' ∈ [twoFiles.view [97], twoFiles.view [98]],
        (v.hashInput v.fpStat.size v.fpStat.mode).map flatFileSystem.blake2b =
          (v'.hashInput v'.fpStat.size v'.fpStat.mode).map flatFileSystem.blake2b →
        v.hashInput v.fpStat.size v.fpStat.mode = v'.hashInput v'.fpStat.size v'.fpStat.mode := by
    decide +kernel
  refine ⟨_, _, computeFingerprintHash_of_readable _ _ _ rfl, computeFingerprintHash_of_readable _ _ _ rfl,
    fingerprint_hashes_identify flatFileSystem ⟨rfl, .inl rfl⟩ ⟨rfl, .inl rfl⟩ ?_
      (computeFingerprintHash_of_readable _ _ _ rfl) (computeFingerprintHash_of_readable _ _ _ rfl)⟩
  rintro x ⟨v, hv, hx⟩ y ⟨v', hv', hy⟩ hxy
  have hmem : ∀ w ∈ ({twoFiles.view [97], twoFiles.view [98]} : Set FileView),
      w ∈ [twoFiles.view [97], twoFiles.view [98]] := fun w hw => by simpa using hw
  have h := hinput v (hmem v hv) v' (hmem v' hv') (by rw [hx, hy, map_some, map_some, hxy])
  rwa [hx, hy, some_inj] at h

def setgidView (path : Path) : FileView where
  stat := { metadata := { mode := if path = [97] then S_IFDIR else S_IFDIR ||| S_ISGID
                          ino := if path = [97] then 1 else 2
                          dev := 1 } }

def setgidDirectories (blake2b : Bytes → Hash) : FileSystem Unit where
  view _ := setgidView
  stat _ path := (setgidView path).stat
  mkdir _ _ := ((), some ⟨"Read-only file system", 30⟩)
  rmdir _ _ := ((), some ⟨"Read-only file system", 30⟩)
  unlink _ _ := ((), some ⟨"Read-only file system", 30⟩)
  writeFile _ _ _ := ((), some ⟨"Read-only file system", 30⟩)
  blake2b := blake2b
  lstat_failed _ _ h := absurd rfl h

theorem hashes_equal_of_setgid (blake2b : Bytes → Hash) :
    ∃ hash, (setgidView [97]).Ordinary ∧ (setgidView [98]).Ordinary ∧
      (setgidDirectories blake2b).CollisionFree {setgidView [97], setgidView [98]} ∧
      computeFingerprintHash (setgidDirectories blake2b) () (setgidView [97]).fpStat.size
        (setgidView [97]).fpStat.mode [97] = .ok hash ∧
      computeFingerprintHash (setgidDirectories blake2b) () (setgidView [98]).fpStat.size
        (setgidView [98]).fpStat.mode [98] = .ok hash ∧ (setgidView [97]).state ≠ (setgidView [98]).state := by
  refine ⟨_, ⟨rfl, .inr (.inl (by decide))⟩, ⟨rfl, .inr (.inl (by decide))⟩, ?_,
    computeFingerprintHash_of_readable _ _ _ rfl, computeFingerprintHash_of_readable _ _ _ rfl, by decide +kernel⟩
  have hinput : ∀ v ∈ [setgidView [97], setgidView [98]], v.hashInput v.fpStat.size v.fpStat.mode =
      some ((extraData 0 (trackedMode S_IFDIR)).take 8) := by decide +kernel
  rintro x ⟨v, hv, hx⟩ y ⟨v', hv', hy⟩ -
  rw [← some_inj, ← hx, ← hy, hinput v (by simpa using hv), hinput v' (by simpa using hv')]

theorem fingerprint_hashes_of_setgid : ∃ hash, (setgidView [97]).Ordinary ∧ (setgidView [98]).Ordinary ∧
      (setgidDirectories flatFileSystem.blake2b).CollisionFree {setgidView [97], setgidView [98]} ∧
      computeFingerprintHash (setgidDirectories flatFileSystem.blake2b) () (setgidView [97]).fpStat.size
        (setgidView [97]).fpStat.mode [97] = .ok hash ∧
      computeFingerprintHash (setgidDirectories flatFileSystem.blake2b) () (setgidView [98]).fpStat.size
        (setgidView [98]).fpStat.mode [98] = .ok hash ∧ (setgidView [97]).state ≠ (setgidView [98]).state :=
  hashes_equal_of_setgid flatFileSystem.blake2b

end Shuriken
