import Shuriken.Lib.Except
import Shuriken.Lib.Lists
import Shuriken.Fs.Fingerprint

/-!
# What a fingerprint stands for

The state of a file in the terms a user has for it: size, type and permission
bits that are tracked, contents. The lemmas relate it to the stat data and the
digest that a fingerprint holds.
-/
namespace Shuriken
open Option Except LittleEndian FileSystem

/-- File type, executable bit, setuid and setgid. -/
structure FileMode where
  type : UInt32
  executable : Bool
  setuid : Bool
  setgid : Bool
  deriving DecidableEq

def FileMode.ofMode (mode : UInt32) : FileMode :=
  { type := mode &&& S_IFMT
    executable := mode &&& S_IXUSR ≠ 0
    setuid := mode &&& S_ISUID ≠ 0
    setgid := mode &&& S_ISGID ≠ 0 }

inductive Contents where
  | directory (entries : List DirEntry)
  | symlink (target : Bytes)
  | file (contents : Bytes)
  | other
  deriving DecidableEq

/-- Directory entries are compared in sorted order, `readDir` promises none. -/
def FileView.contentsFor (v : FileView) (mode : UInt32) : Contents :=
  if sIsDir mode then .directory (sortedEntries v.entries)
  else if sIsLnk mode then .symlink v.target
  else if sIsReg mode then .file v.contents
  else .other

structure FileState where
  size : UInt64
  mode : FileMode
  contents : Contents
  deriving DecidableEq

def FileView.state (v : FileView) : Option FileState :=
  if v.stat.result = 0 then
    some ⟨v.stat.metadata.size, .ofMode v.stat.metadata.mode, v.contentsFor v.stat.metadata.mode⟩
  else none

def FileView.fpStat (v : FileView) : FingerprintStat := .fromStat v.stat {}

variable {v : FileView}

theorem FileView.fpStat_of_found (h : v.stat.result = 0) :
    v.fpStat = ⟨v.stat.metadata.size, v.stat.metadata.ino, trackedMode v.stat.metadata.mode, v.stat.mtime⟩ := by
  simp only [fpStat, FingerprintStat.fromStat, h, if_true]

theorem FileView.fpStat_of_failed (h : v.stat.result ≠ 0) : v.fpStat = {} := by
  simp only [fpStat, FingerprintStat.fromStat, h, if_false]

private theorem and_mask_or (a b c m : UInt32) : (a ||| b ||| c) &&& m = (a &&& m) ||| (b &&& m) ||| (c &&& m) := by
  apply UInt32.toBitVec_inj.mp
  simp only [UInt32.toBitVec_and, UInt32.toBitVec_or, BitVec.and_or_distrib_right]

private theorem trackedMode_and (mode mask : UInt32) (hd : kDefaultBits &&& mask = 0) : trackedMode mode &&& mask =
      ((if mode &&& S_IXUSR ≠ 0 then kExecutableBits else 0) &&& mask) ||| (mode &&& (kModeMask &&& mask)) := by
  rw [trackedMode, and_mask_or, hd, UInt32.zero_or, UInt32.and_assoc]

private theorem trackedMode_and_kept (mode mask : UInt32) (hd : kDefaultBits &&& mask = 0)
    (he : kExecutableBits &&& mask = 0) (hm : kModeMask &&& mask = mask) :
    trackedMode mode &&& mask = mode &&& mask := by
  rw [trackedMode_and mode mask hd, hm]
  split
  · rw [he, UInt32.zero_or]
  · rw [UInt32.zero_and, UInt32.zero_or]

section
variable (mode : UInt32)
include mode

@[simp] theorem trackedMode_type : trackedMode mode &&& S_IFMT = mode &&& S_IFMT :=
  trackedMode_and_kept mode S_IFMT (by decide) (by decide) (by decide)

theorem trackedMode_setuid : trackedMode mode &&& S_ISUID = mode &&& S_ISUID :=
  trackedMode_and_kept mode S_ISUID (by decide) (by decide) (by decide)

theorem trackedMode_setgid : trackedMode mode &&& S_ISGID = mode &&& S_ISGID :=
  trackedMode_and_kept mode S_ISGID (by decide) (by decide) (by decide)

theorem trackedMode_executable : trackedMode mode &&& S_IXUSR = if mode &&& S_IXUSR ≠ 0 then S_IXUSR else 0 := by
  have hm : kModeMask &&& S_IXUSR = 0 := by decide
  rw [trackedMode_and mode S_IXUSR (by decide), hm, UInt32.and_zero, UInt32.or_zero]
  split
  · decide
  · exact UInt32.zero_and

theorem trackedMode_ne_zero : trackedMode mode ≠ 0 := by
  intro h
  have hbit : trackedMode mode &&& kDefaultBits = kDefaultBits := by
    apply UInt32.toBitVec_inj.mp
    simp only [trackedMode, UInt32.toBitVec_and, UInt32.toBitVec_or]
    apply BitVec.eq_of_getElem_eq
    intro i hi
    simp only [BitVec.getElem_and, BitVec.getElem_or]
    cases kDefaultBits.toBitVec[i] <;> simp
  rw [h, UInt32.zero_and] at hbit
  exact absurd hbit (by decide)

private theorem mode_and_mask :
    mode &&& kModeMask = (mode &&& S_IFMT) ||| (mode &&& S_ISUID) ||| (mode &&& S_ISGID) := by
  apply UInt32.toBitVec_inj.mp
  simp only [kModeMask, UInt32.toBitVec_and, UInt32.toBitVec_or, BitVec.and_or_distrib_left]

end

private theorem and_bit_eq {m m' bit : UInt32} (hm : m &&& bit = 0 ∨ m &&& bit = bit)
    (hm' : m' &&& bit = 0 ∨ m' &&& bit = bit) (hb : bit ≠ 0)
    (h : decide (m &&& bit ≠ 0) = decide (m' &&& bit ≠ 0)) : m &&& bit = m' &&& bit := by
  rcases hm with hm | hm <;> rcases hm' with hm' | hm' <;> simp_all

private theorem and_two_pow (m : UInt32) (k : Nat) (bit : UInt32)
    (hbit : bit.toBitVec = BitVec.twoPow 32 k) : m &&& bit = 0 ∨ m &&& bit = bit := by
  have h : m.toBitVec &&& bit.toBitVec =
      if m.toBitVec.getLsbD k then bit.toBitVec else 0#32 := by
    rw [hbit, BitVec.and_twoPow]
  cases hk : m.toBitVec.getLsbD k with
  | false => exact .inl (UInt32.toBitVec_inj.mp (by simpa [hk] using h))
  | true => exact .inr (UInt32.toBitVec_inj.mp (by simpa [hk] using h))

/-- A fingerprint tracks exactly the type, the executable bit, setuid and setgid. -/
theorem trackedMode_eq_iff (m m' : UInt32) :
    trackedMode m = trackedMode m' ↔ FileMode.ofMode m = FileMode.ofMode m' := by
  constructor
  · intro h
    have htype : m &&& S_IFMT = m' &&& S_IFMT := by
      rw [← trackedMode_type m, ← trackedMode_type m', h]
    have huid : m &&& S_ISUID = m' &&& S_ISUID := by
      rw [← trackedMode_setuid m, ← trackedMode_setuid m', h]
    have hgid : m &&& S_ISGID = m' &&& S_ISGID := by
      rw [← trackedMode_setgid m, ← trackedMode_setgid m', h]
    have hexec := congrArg (· &&& S_IXUSR) h
    simp only [trackedMode_executable] at hexec
    have hexec' : decide (m &&& S_IXUSR ≠ 0) = decide (m' &&& S_IXUSR ≠ 0) := by
      have hx : S_IXUSR ≠ 0 := by decide
      by_cases h1 : m &&& S_IXUSR = 0 <;> by_cases h2 : m' &&& S_IXUSR = 0 <;>
        simp_all
    simp only [FileMode.ofMode, htype, huid, hgid, hexec']
  · intro h
    simp only [FileMode.ofMode, FileMode.mk.injEq] at h
    obtain ⟨htype, hexec, huid, hgid⟩ := h
    have hu := and_bit_eq (and_two_pow m 11 S_ISUID (by decide))
      (and_two_pow m' 11 S_ISUID (by decide)) (by decide) huid
    have hg := and_bit_eq (and_two_pow m 10 S_ISGID (by decide))
      (and_two_pow m' 10 S_ISGID (by decide)) (by decide) hgid
    have he : (m &&& S_IXUSR ≠ 0) = (m' &&& S_IXUSR ≠ 0) := by
      simpa only [decide_eq_decide, eq_iff_iff] using hexec
    simp only [trackedMode, mode_and_mask, htype, hu, hg, he]

@[simp] theorem contentsFor_trackedMode (v : FileView) (mode : UInt32) :
    v.contentsFor (trackedMode mode) = v.contentsFor mode := by
  unfold FileView.contentsFor sIsDir sIsLnk sIsReg
  rw [trackedMode_type]

theorem FileView.fpStat_mode_eq_zero : v.fpStat.mode = 0 ↔ v.stat.result ≠ 0 := by
  constructor
  · intro h hfound
    rw [fpStat_of_found hfound] at h
    exact trackedMode_ne_zero _ h
  · intro h
    rw [fpStat_of_failed h]

theorem FileView.state_eq_iff {v' : FileView} :
    v.state = v'.state ↔ v.fpStat.size = v'.fpStat.size ∧ v.fpStat.mode = v'.fpStat.mode ∧
      v.contentsFor v.fpStat.mode = v'.contentsFor v'.fpStat.mode := by
  by_cases h : v.stat.result = 0
  · by_cases h' : v'.stat.result = 0
    · simp only [state, h, h', if_true, fpStat_of_found, some.injEq, FileState.mk.injEq,
        trackedMode_eq_iff, contentsFor_trackedMode]
    · have hmode := trackedMode_ne_zero v.stat.metadata.mode
      simp only [state, h, h', if_true, if_false, fpStat_of_found, fpStat_of_failed h', hmode,
        reduceCtorEq, false_and, and_false]
  · by_cases h' : v'.stat.result = 0
    · have hmode := (trackedMode_ne_zero v'.stat.metadata.mode).symm
      simp only [state, h, h', if_true, if_false, fpStat_of_found, fpStat_of_failed h, hmode,
        reduceCtorEq, false_and, and_false]
    · simp only [state, h, h', if_false, fpStat_of_failed h, fpStat_of_failed h', true_and, true_iff]
      rfl

def Contents.hashInput (size : UInt64) (mode : UInt32) : Contents → Option Bytes
  | .directory entries =>
    some ((extraData size mode).take 8 ++ entries.flatMap dirEntryBytes)
  | .symlink target => some ((extraData size mode).take 8 ++ target)
  | .file contents => some (extraData size mode ++ contents)
  | .other => none

def FileView.hashInput (v : FileView) (size : UInt64) (mode : UInt32) : Option Bytes :=
  (v.contentsFor mode).hashInput size mode

theorem DirEntryType.value_injective {a b : DirEntryType} (h : a.value = b.value) : a = b := by
  revert h
  cases a <;> cases b <;> decide

theorem flatMap_dirEntryBytes_injective {xs ys : List DirEntry}
    (h : xs.flatMap dirEntryBytes = ys.flatMap dirEntryBytes) : xs = ys := by
  induction xs generalizing ys with
  | nil =>
    cases ys with
    | nil => rfl
    | cons y ys => simp [dirEntryBytes] at h
  | cons x xs ih =>
    cases ys with
    | nil => simp [dirEntryBytes] at h
    | cons y ys =>
      simp only [List.flatMap_cons] at h
      obtain ⟨ta, na, ha⟩ := x
      obtain ⟨tb, nb, hb⟩ := y
      obtain ⟨htype, hrest⟩ := List.cons.inj h
      obtain ⟨rfl, hmore⟩ := Terminated.terminate_append_inj ha hb hrest
      cases DirEntryType.value_injective htype
      rw [ih hmore]

theorem FileView.contentsFor_eq_of_hashInput {v' : FileView} {size : UInt64} {mode : UInt32}
    (h : v.hashInput size mode = v'.hashInput size mode) : v.contentsFor mode = v'.contentsFor mode := by
  unfold hashInput contentsFor at h
  unfold contentsFor
  by_cases hdir : sIsDir mode
  · simp only [hdir, if_true, Contents.hashInput, some.injEq, List.append_cancel_left_eq] at h ⊢
    rw [flatMap_dirEntryBytes_injective h]
  · by_cases hlnk : sIsLnk mode
    · simpa only [hdir, hlnk, if_true, if_false, Bool.false_eq_true, Contents.hashInput,
        some.injEq, List.append_cancel_left_eq, Contents.symlink.injEq] using h
    · by_cases hreg : sIsReg mode
      · simpa only [hdir, hlnk, hreg, if_true, if_false, Bool.false_eq_true, Contents.hashInput,
          some.injEq, List.append_cancel_left_eq, Contents.file.injEq] using h
      · simp only [hdir, hlnk, hreg, if_false, Bool.false_eq_true]

section
variable {σ : Type} (F : FileSystem σ)

def FileSystem.digest (v : FileView) (size : UInt64) (mode : UInt32) : Hash :=
  match v.hashInput size mode with
  | some bytes => F.blake2b bytes
  | none => Hash.zero

def FileSystem.fpDigest (v : FileView) : Hash := F.digest v v.fpStat.size v.fpStat.mode

variable {s : σ} {path : Path} {views : Set FileView} {fp : Fingerprint} {result : MatchesResult}

theorem computeFingerprintHash_congr {s' : σ} (h : F.view s' path = F.view s path) (size : UInt64) (mode : UInt32) :
    computeFingerprintHash F s' size mode path = computeFingerprintHash F s size mode path := by
  simp only [computeFingerprintHash, hashDir, hashSymlink, hashFile,
    readDir, readSymlink, readFile, h]

theorem computeFingerprintHash_of_readable (size : UInt64) (mode : UInt32) (h : (F.view s path).readError = none) :
    computeFingerprintHash F s size mode path = .ok (F.digest (F.view s path) size mode) := by
  unfold computeFingerprintHash digest FileView.hashInput FileView.contentsFor
    hashDir hashSymlink hashFile readDir
    readSymlink readFile
  simp only [h]
  split
  · rfl
  · split
    · rfl
    · split <;> rfl

theorem computeFingerprintHash_ok {size : UInt64} {mode : UInt32} {hash : Hash}
    (h : computeFingerprintHash F s size mode path = .ok hash) : hash = F.digest (F.view s path) size mode := by
  cases herr : (F.view s path).readError with
  | none =>
    rw [computeFingerprintHash_of_readable F size mode herr] at h
    exact (ok.inj h).symm
  | some error =>
    unfold computeFingerprintHash hashDir hashSymlink hashFile
      readDir readSymlink readFile at h
    unfold digest FileView.hashInput FileView.contentsFor
    simp only [herr] at h
    split at h
    · cases h
    · rw [if_neg ‹_›]
      split at h
      · cases h
      · rw [if_neg ‹_›]
        split at h
        · cases h
        · rw [if_neg ‹_›]
          exact (ok.inj h).symm

theorem FileSystem.fpDigest_eq_of_state {v v' : FileView} (h : v.state = v'.state) : F.fpDigest v = F.fpDigest v' := by
  obtain ⟨hsize, hmode, hcontents⟩ := FileView.state_eq_iff.mp h
  rw [hmode] at hcontents
  simp only [fpDigest, digest, FileView.hashInput, hsize, hmode, hcontents]

/-- No two different inputs among those hashed for the views have the same digest. -/
def FileSystem.CollisionFree (views : Set FileView) : Prop :=
  Set.InjOn F.blake2b {bytes | ∃ v ∈ views, v.hashInput v.fpStat.size v.fpStat.mode = some bytes}

theorem FileSystem.state_eq_of_fpDigest (hcf : F.CollisionFree views) {v v' : FileView} (hv : v ∈ views)
    (hv' : v' ∈ views) (hsize : v.fpStat.size = v'.fpStat.size) (hmode : v.fpStat.mode = v'.fpStat.mode)
    (h : F.fpDigest v = F.fpDigest v') : v.state = v'.state := by
  refine FileView.state_eq_iff.mpr ⟨hsize, hmode, ?_⟩
  rw [← hmode]
  refine FileView.contentsFor_eq_of_hashInput (?_ : v.hashInput v.fpStat.size _ = _)
  have hkind : (v.hashInput v.fpStat.size v.fpStat.mode).isSome =
      (v'.hashInput v.fpStat.size v.fpStat.mode).isSome := by
    unfold FileView.hashInput FileView.contentsFor
    split
    · rfl
    · split
      · rfl
      · split <;> rfl
  simp only [fpDigest, digest] at h
  rw [← hsize, ← hmode] at h
  cases hin : v.hashInput v.fpStat.size v.fpStat.mode with
  | none =>
    rw [hin] at hkind
    exact (isNone_iff_eq_none.mp (by simpa using hkind.symm)).symm
  | some bytes =>
    cases hin' : v'.hashInput v.fpStat.size v.fpStat.mode with
    | none => simp [hin, hin'] at hkind
    | some bytes' =>
      rw [hin, hin'] at h
      rw [hcf ⟨v, hv, hin⟩ ⟨v', hv', by rw [← hsize, ← hmode]; exact hin'⟩ h]

/-- The fingerprint is one of the file as it is in this view. -/
structure Fingerprint.Describes (fp : Fingerprint) (v : FileView) : Prop where
  stat : fp.stat = v.fpStat
  hash : fp.hash = F.fpDigest v

def Fingerprint.Trusts (fp : Fingerprint) (v : FileView) : Prop :=
  v.fpStat = fp.stat ∧ (fp.racilyClean = false ∨ fp.stat.mode = 0)

theorem takeFingerprint_ok {timestamp : Int64} {id : FileId} (h : takeFingerprint F s timestamp path = .ok (fp, id)) :
    fp.Describes F (F.view s path) ∧ fp.racilyClean = isRacilyClean fp.stat timestamp ∧
      id = FileId.ofStat (F.lstat s path) := by
  obtain ⟨hash, hhash, h⟩ := bind_eq_ok.mp h
  simp only [pure_eq_ok, Prod.mk.injEq] at h
  obtain ⟨rfl, rfl⟩ := h
  exact ⟨⟨rfl, computeFingerprintHash_ok F hhash⟩, rfl, rfl⟩

theorem takeFingerprint_of_readable (timestamp : Int64) (h : (F.view s path).readError = none) :
    takeFingerprint F s timestamp path = .ok (⟨(F.view s path).fpStat, isRacilyClean (F.view s path).fpStat timestamp,
        F.fpDigest (F.view s path)⟩, FileId.ofStat (F.view s path).stat) := by
  simp only [takeFingerprint, computeFingerprintHash_of_readable F _ _ h]
  rfl

theorem fingerprintMatches_of_trusts (h : fp.Trusts (F.view s path)) :
    fingerprintMatches F s path fp = .ok { clean := true, fileId := FileId.ofStat (F.view s path).stat } := by
  simp only [Fingerprint.Trusts, FileView.fpStat] at h
  simp only [fingerprintMatches, fingerprintMatchesCurrent, lstat, h, and_self, if_true]
  rfl

/-- How a comparison with the current file can come out, in the terms of its view. -/
theorem fingerprintMatchesCurrent_ok {hash hash' : Hash}
    (h : fingerprintMatchesCurrent F s path fp (F.lstat s path) hash = .ok (result, hash')) :
    (fp.Trusts (F.view s path) ∧ result.clean = true ∧ hash' = hash) ∨
    (¬ fp.Trusts (F.view s path) ∧ (F.view s path).fpStat.size = fp.stat.size ∧
      (F.view s path).fpStat.mode = fp.stat.mode ∧ hash' = F.fpDigest (F.view s path) ∧
      result.clean = decide (fp.hash = hash') ∧ result.shouldUpdate = true) ∨
    (¬ ((F.view s path).fpStat.size = fp.stat.size ∧ (F.view s path).fpStat.mode = fp.stat.mode) ∧
      result.clean = false ∧ result.shouldUpdate = false) := by
  simp only [fingerprintMatchesCurrent, lstat, ← FileView.fpStat.eq_1] at h
  split at h
  · rename_i htrust
    simp only [ok.injEq, Prod.mk.injEq] at h
    obtain ⟨rfl, rfl⟩ := h
    exact .inl ⟨htrust, rfl, rfl⟩
  · rename_i htrust
    split at h
    · rename_i hsame
      obtain ⟨newHash, hnew, h⟩ := bind_eq_ok.mp h
      simp only [pure_eq_ok, Prod.mk.injEq] at h
      obtain ⟨rfl, rfl⟩ := h
      have hdigest := computeFingerprintHash_ok F hnew
      rw [← hsame.1, ← hsame.2] at hdigest
      refine .inr (.inl ⟨htrust, hsame.1, hsame.2, hdigest, ?_, rfl⟩)
      simp only [fingerprintMatchesFpStat, hsame.1, hsame.2, beq_self_eq_true, Bool.true_and]
      rfl
    · rename_i hsame
      simp only [ok.injEq, Prod.mk.injEq] at h
      obtain ⟨rfl, rfl⟩ := h
      exact .inr (.inr ⟨hsame, rfl, rfl⟩)

theorem fingerprintMatches_of_readable (fp : Fingerprint) (h : (F.view s path).readError = none) :
    ∃ result, fingerprintMatches F s path fp = .ok result := by
  unfold fingerprintMatches fingerprintMatchesCurrent
  simp only
  split
  · exact ⟨_, rfl⟩
  · split
    · rw [computeFingerprintHash_of_readable F _ _ h]
      exact ⟨_, rfl⟩
    · exact ⟨_, rfl⟩

theorem Fingerprint.Describes.clean_iff {v : FileView} (hfp : fp.Describes F v) (hcf : F.CollisionFree views)
    (hv : v ∈ views) (hnow : F.view s path ∈ views)
    (hquick : fp.Trusts (F.view s path) → (F.view s path).state = v.state)
    (h : fingerprintMatches F s path fp = .ok result) : result.clean = true ↔ (F.view s path).state = v.state := by
  obtain ⟨⟨result', hash⟩, hmatch, h⟩ := bind_eq_ok.mp h
  obtain rfl := pure_eq_ok.mp h
  rcases fingerprintMatchesCurrent_ok F hmatch with
    ⟨htrust, hclean, -⟩ | ⟨-, hsize, hmode, hhash, hclean, -⟩ | ⟨hdiff, hclean, -⟩
  · exact iff_of_true hclean (hquick htrust)
  · rw [hclean, decide_eq_true_iff, hfp.hash, hhash]
    rw [hfp.stat] at hsize hmode
    exact ⟨fun h => F.state_eq_of_fpDigest hcf hnow hv hsize hmode h.symm, fun h => (F.fpDigest_eq_of_state h).symm⟩
  · refine iff_of_false (by rw [hclean]; exact Bool.false_ne_true) fun hstate => hdiff ?_
    obtain ⟨hsize, hmode, -⟩ := FileView.state_eq_iff.mp hstate
    rw [hfp.stat]
    exact ⟨hsize, hmode⟩

end
end Shuriken
