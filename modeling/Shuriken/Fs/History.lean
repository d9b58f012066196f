import Shuriken.Fs.FileState

/-!
# Fingerprints over the history of a path

A history is the sequence of moments at which a path was looked at or changed, with the clock of each.
-/
namespace Shuriken
open List Except FileView

structure Moment (σ : Type) where
  clock : Int64
  fs : σ

/-- Nobody wrote to the path. Its permissions may have changed. -/
structure FileView.Untouched (v v' : FileView) : Prop where
  result : v'.stat.result = v.stat.result
  ino : v'.stat.metadata.ino = v.stat.metadata.ino
  size : v'.stat.metadata.size = v.stat.metadata.size
  mtime : v'.stat.mtime = v.stat.mtime
  contents : v'.contents = v.contents
  target : v'.target = v.target
  entries : v'.entries = v.entries

/-- What may happen to a path while the clock goes from `t₀` to `t₁`. The earlier
views of the path, newest first, are there for `otherInode` to refer to. -/
inductive HonestStep (otherInode : List FileView → UInt64 → Prop) (t₀ t₁ : Int64)
    (earlier : List FileView) (v v' : FileView) : Prop where
  | untouched : v.Untouched v' → HonestStep otherInode t₀ t₁ earlier v v'
  | deleted : v'.stat.result ≠ 0 → HonestStep otherInode t₀ t₁ earlier v v'
  | written (t : Int64) : t₀ ≤ t → t ≤ t₁ → t ≤ v'.stat.mtime → HonestStep otherInode t₀ t₁ earlier v v'
  | replaced : otherInode (v :: earlier) v'.stat.metadata.ino → HonestStep otherInode t₀ t₁ earlier v v'

def FreshInode (earlier : List FileView) (ino : UInt64) : Prop := ∀ v ∈ earlier, v.stat.metadata.ino ≠ ino

def DifferentInode (earlier : List FileView) (ino : UInt64) : Prop := ∀ v ∈ earlier.head?, v.stat.metadata.ino ≠ ino

section
variable {σ : Type} (F : FileSystem σ) (path : Path)

/-- Newest moment first. -/
inductive History (otherInode : List FileView → UInt64 → Prop) : List (Moment σ) → Prop where
  | start (m : Moment σ) : History otherInode [m]
  | step {m m' : Moment σ} {rest : List (Moment σ)} : History otherInode (m :: rest) → m.clock ≤ m'.clock →
      HonestStep otherInode m.clock m'.clock (rest.map (F.view ·.fs path)) (F.view m.fs path)
        (F.view m'.fs path) →
      History otherInode (m' :: m :: rest)

/-- The fingerprint is the last of a chain of fingerprints of the path. The first one is
taken, the others retaken, each at the newest moment of the history given here. -/
inductive Obtained : List (Moment σ) → Fingerprint → Prop where
  | take {m : Moment σ} {rest : List (Moment σ)} {fp : Fingerprint} {id : FileId} :
      takeFingerprint F m.fs m.clock path = .ok (fp, id) → Obtained (m :: rest) fp
  | retake {m : Moment σ} {rest past : List (Moment σ)} {old fp : Fingerprint} {id : FileId} :
      Obtained past old → past <:+ m :: rest →
      retakeFingerprint F m.fs m.clock path old = .ok (fp, id) → Obtained (m :: rest) fp

variable {F path}

theorem FileView.Untouched.refl (v : FileView) : v.Untouched v := ⟨rfl, rfl, rfl, rfl, rfl, rfl, rfl⟩

theorem FileView.Untouched.trans {u v w : FileView} (h : u.Untouched v) (h' : v.Untouched w) : u.Untouched w :=
  ⟨h'.result.trans h.result, h'.ino.trans h.ino, h'.size.trans h.size, h'.mtime.trans h.mtime,
    h'.contents.trans h.contents, h'.target.trans h.target, h'.entries.trans h.entries⟩

theorem History.of_suffix {otherInode : List FileView → UInt64 → Prop} {now past : List (Moment σ)}
    (hist : History F path otherInode now) (hpast : past <:+ now) (hne : past ≠ []) :
    History F path otherInode past := by
  induction hist with
  | start m =>
    rcases suffix_cons_iff.mp hpast with rfl | hnil
    · exact .start m
    · exact absurd (suffix_nil.mp hnil) hne
  | step hrest hclock hstep ih =>
    rcases suffix_cons_iff.mp hpast with rfl | hsuffix
    · exact .step hrest hclock hstep
    · exact ih hsuffix

/-- What can have become of a path since it was seen as `v` at time `t`. -/
inductive Since (t : Int64) (v v' : FileView) : Prop where
  | untouched : v.Untouched v' → Since t v v'
  | deleted : v'.stat.result ≠ 0 → Since t v v'
  | written : t ≤ v'.stat.mtime → Since t v v'
  | replaced : v'.stat.metadata.ino ≠ v.stat.metadata.ino → Since t v v'

theorem Since.step {t t₀ t₁ : Int64} {earlier : List FileView} {u v v' : FileView} (h : Since t u v) (ht : t ≤ t₀)
    (hmem : u ∈ v :: earlier) (hstep : HonestStep FreshInode t₀ t₁ earlier v v') : Since t u v' := by
  cases hstep with
  | untouched hsame =>
    cases h with
    | untouched h => exact .untouched (h.trans hsame)
    | deleted h => exact .deleted (hsame.result ▸ h)
    | written h => exact .written (hsame.mtime ▸ h)
    | replaced h => exact .replaced (hsame.ino ▸ h)
  | deleted h => exact .deleted h
  | written t' ht₀ ht₁ hmtime => exact .written (Int64.le_trans ht (Int64.le_trans ht₀ hmtime))
  | replaced hfresh => exact .replaced (hfresh u hmem).symm

variable {past now : Moment σ} {before rest : List (Moment σ)} {fp : Fingerprint} {timestamp : Int64} {m : Moment σ}
    {id : FileId} {old : Fingerprint} {s : σ}

theorem History.since (hist : History F path FreshInode (now :: rest)) (hpast : past :: before <:+ now :: rest) :
    past.clock ≤ now.clock ∧ Since past.clock (F.view past.fs path) (F.view now.fs path) := by
  generalize hnow : now :: rest = moments at hist hpast
  induction hist generalizing now rest with
  | start m =>
    cases hnow
    rcases suffix_cons_iff.mp hpast with heq | hnil
    · cases heq
      exact ⟨Int64.le_refl _, .untouched (.refl _)⟩
    · exact absurd (suffix_nil.mp hnil) (cons_ne_nil _ _)
  | step hrest hclock hstep ih =>
    cases hnow
    rcases suffix_cons_iff.mp hpast with heq | hsuffix
    · cases heq
      exact ⟨Int64.le_refl _, .untouched (.refl _)⟩
    · obtain ⟨ht, hsince⟩ := ih rfl hsuffix
      refine ⟨Int64.le_trans ht hclock, hsince.step ht ?_ hstep⟩
      exact mem_map_of_mem (f := (F.view ·.fs path)) (hsuffix.subset mem_cons_self)

/-- The fingerprint describes the path at this moment, and its stat data was older than
the clock unless it says that it was not. -/
structure Fingerprint.ValidAt (F : FileSystem σ) (path : Path) (fp : Fingerprint) (m : Moment σ) : Prop where
  describes : fp.Describes F (F.view m.fs path)
  settled : fp.racilyClean = false → fp.stat.mode ≠ 0 → fp.stat.mtime < m.clock

theorem settled_of_isRacilyClean (h : fp.racilyClean = isRacilyClean fp.stat timestamp) :
    fp.racilyClean = false → fp.stat.mtime < timestamp := by
  intro hracy
  rw [hracy, isRacilyClean, eq_comm, decide_eq_false_iff_not, Int64.not_le] at h
  exact h

/-- A file that is accepted for its stat data has not changed. -/
theorem Fingerprint.ValidAt.state_of_trusts (hfp : fp.ValidAt F path past)
    (hist : History F path FreshInode (now :: rest)) (hpast : past :: before <:+ now :: rest)
    (htrust : fp.Trusts (F.view now.fs path)) : (F.view now.fs path).state = (F.view past.fs path).state := by
  obtain ⟨hstat, hquick⟩ := htrust
  have hstats : (F.view now.fs path).fpStat = (F.view past.fs path).fpStat := hstat.trans hfp.describes.stat
  by_cases hmode : fp.stat.mode = 0
  · have hnow := fpStat_mode_eq_zero.mp (hstat ▸ hmode)
    have hthen := fpStat_mode_eq_zero.mp (hfp.describes.stat ▸ hmode)
    simp only [state, hnow, hthen, if_false]
  · have hold := hfp.settled (hquick.resolve_right hmode) hmode
    have hfound : (F.view now.fs path).stat.result = 0 := by
      by_contra hmissing
      exact hmode (hstat ▸ fpStat_mode_eq_zero.mpr hmissing)
    have hthen : (F.view past.fs path).stat.result = 0 := by
      by_contra hmissing
      exact hmode (hfp.describes.stat ▸ fpStat_mode_eq_zero.mpr hmissing)
    cases (hist.since hpast).2 with
    | untouched hsame =>
      refine state_eq_iff.mpr ⟨by rw [hstats], by rw [hstats], ?_⟩
      simp only [hstats, contentsFor, hsame.contents, hsame.target, hsame.entries]
    | deleted hmissing => exact absurd hfound hmissing
    | written hmtime =>
      rw [← hstat, fpStat_of_found hfound] at hold
      exact absurd hold (Int64.not_lt.mpr hmtime)
    | replaced hino =>
      rw [fpStat_of_found hfound, fpStat_of_found hthen] at hstats
      exact absurd (congrArg FingerprintStat.ino hstats) hino

theorem takeFingerprint_validAt (h : takeFingerprint F m.fs m.clock path = .ok (fp, id)) : fp.ValidAt F path m := by
  obtain ⟨hdescribes, hracy, -⟩ := takeFingerprint_ok F h
  exact ⟨hdescribes, fun hclean _ => settled_of_isRacilyClean hracy hclean⟩

theorem retakeFingerprint_validAt (hold : old.ValidAt F path past) (hist : History F path FreshInode (now :: rest))
    (hpast : past :: before <:+ now :: rest) (h : retakeFingerprint F now.fs now.clock path old = .ok (fp, id)) :
    fp.ValidAt F path now := by
  obtain ⟨⟨result, hash⟩, hmatch, h⟩ := bind_eq_ok.mp h
  have hkept : old.stat.mode = (F.view now.fs path).fpStat.mode →
      FingerprintStat.fromStat (F.view now.fs path).stat old.stat = (F.view now.fs path).fpStat := by
    intro hmode
    by_cases hfound : (F.view now.fs path).stat.result = 0
    · simp only [fpStat, FingerprintStat.fromStat, hfound, if_true]
    · rw [fpStat_mode_eq_zero.mpr hfound, hold.describes.stat, fpStat_mode_eq_zero] at hmode
      rw [fpStat_of_failed hfound, FingerprintStat.fromStat, if_neg hfound,
        hold.describes.stat, fpStat_of_failed hmode]
  have hvalid : (result.clean || result.shouldUpdate) = true →
      old.stat.mode = (F.view now.fs path).fpStat.mode → hash = F.fpDigest (F.view now.fs path) →
      fp.ValidAt F path now := by
    intro hkeep hmode hhash
    simp only [hkeep, if_true, pure_eq_ok, Prod.mk.injEq] at h
    obtain ⟨rfl, -⟩ := h
    exact ⟨⟨hkept hmode, hhash⟩, fun hclean _ => settled_of_isRacilyClean rfl hclean⟩
  rcases fingerprintMatchesCurrent_ok F hmatch with
    ⟨htrust, hclean, rfl⟩ | ⟨-, -, hmode, hhash, -, hupdate⟩ | ⟨-, hclean, hupdate⟩
  · refine hvalid (by rw [hclean, Bool.true_or]) (by rw [htrust.1]) ?_
    rw [hold.describes.hash, F.fpDigest_eq_of_state (hold.state_of_trusts hist hpast htrust)]
  · exact hvalid (by rw [hupdate, Bool.or_true]) hmode.symm hhash
  · simp only [hclean, hupdate, Bool.or_self, Bool.false_eq_true, if_false] at h
    exact takeFingerprint_validAt h

theorem Obtained.validAt (h : Obtained F path (m :: rest) fp) (hist : History F path FreshInode (m :: rest)) :
    fp.ValidAt F path m := by
  generalize hm : m :: rest = moments at h
  induction h generalizing m rest with
  | take htake =>
    cases hm
    exact takeFingerprint_validAt htake
  | @retake m' rest' past old fp id hobtained hpast hretake ih =>
    cases hm
    cases past with
    | nil => cases hobtained
    | cons m₀ before =>
      have hold := ih (hist.of_suffix hpast (cons_ne_nil _ _)) rfl
      exact retakeFingerprint_validAt hold hist hpast hretake

/-- A later comparison accepts the file if and only if it is as it was when the fingerprint
was obtained. It gives an answer whenever the file can be read. -/
theorem fingerprintMatches_clean_iff_state {fp : Fingerprint} {taken now : Moment σ} {before rest : List (Moment σ)}
    (hist : History F path FreshInode (now :: rest)) (hpast : taken :: before <:+ now :: rest)
    (hfp : Obtained F path (taken :: before) fp) (hcf : F.CollisionFree {v | ∃ m ∈ now :: rest, F.view m.fs path = v}) :
    (∀ result, fingerprintMatches F now.fs path fp = .ok result →
      (result.clean = true ↔ (F.view now.fs path).state = (F.view taken.fs path).state)) ∧
    ((F.view now.fs path).readError = none → ∃ result, fingerprintMatches F now.fs path fp = .ok result) := by
  have hvalid := hfp.validAt (hist.of_suffix hpast (cons_ne_nil _ _))
  refine ⟨fun result h => ?_, fingerprintMatches_of_readable F fp⟩
  refine hvalid.describes.clean_iff F hcf ?_ ?_ (hvalid.state_of_trusts hist hpast) h
  · exact ⟨taken, hpast.subset mem_cons_self, rfl⟩
  · exact ⟨now, mem_cons_self, rfl⟩

theorem retakeFingerprint_ok (h : retakeFingerprint F s timestamp path old = .ok (fp, id)) :
    fp.racilyClean = isRacilyClean fp.stat timestamp ∧ id = FileId.ofStat (F.lstat s path) := by
  obtain ⟨⟨result, hash⟩, -, h⟩ := bind_eq_ok.mp h
  cases hkeep : (result.clean || result.shouldUpdate) with
  | true =>
    simp only [hkeep, if_true, pure_eq_ok, Prod.mk.injEq] at h
    obtain ⟨rfl, rfl⟩ := h
    exact ⟨rfl, rfl⟩
  | false =>
    simp only [hkeep, Bool.false_eq_true, if_false] at h
    exact (takeFingerprint_ok F h).2

theorem retakeFingerprint_succeeds {r : Fingerprint × FileId} (h : takeFingerprint F s timestamp path = .ok r)
    (old : Fingerprint) : ∃ r', retakeFingerprint F s timestamp path old = .ok r' := by
  obtain ⟨hash, hhash, -⟩ := bind_eq_ok.mp h
  have hmatch : ∃ x, fingerprintMatchesCurrent F s path old (F.lstat s path) old.hash = .ok x := by
    unfold fingerprintMatchesCurrent
    simp only
    split
    · exact ⟨_, rfl⟩
    · split
      · rename_i hsame
        rw [← hsame.1, ← hsame.2, hhash]
        exact ⟨_, rfl⟩
      · exact ⟨_, rfl⟩
  obtain ⟨⟨result, hash'⟩, hmatch⟩ := hmatch
  simp only [retakeFingerprint, hmatch, bind, Except.bind]
  split
  · exact ⟨_, rfl⟩
  · exact ⟨r, h⟩

theorem Obtained.racilyClean_eq (h : Obtained F path (m :: rest) fp) :
    fp.racilyClean = isRacilyClean fp.stat m.clock := by
  cases h with
  | take htake => exact (takeFingerprint_ok F htake).2.1
  | retake _ _ hretake => exact (retakeFingerprint_ok hretake).1

theorem Obtained.keeps_racilyClean_iff {taken : Moment σ} (hold : Obtained F path (taken :: before) old)
    (htrust : old.Trusts (F.view now.fs path)) (hclock : taken.clock ≤ now.clock) :
    isRacilyClean old.stat now.clock = old.racilyClean ↔
      (F.lstat now.fs path).result = 0 ∨ 0 < taken.clock ∨ now.clock ≤ 0 := by
  have hracy := hold.racilyClean_eq
  by_cases hfound : (F.view now.fs path).stat.result = 0
  · refine iff_of_true ?_ (.inl hfound)
    have hmode : old.stat.mode ≠ 0 := by
      rw [← htrust.1]
      exact fun h => fpStat_mode_eq_zero.mp h hfound
    have hclean := htrust.2.resolve_right hmode
    have hmtime := settled_of_isRacilyClean hracy hclean
    rw [hclean, isRacilyClean, decide_eq_false_iff_not, Int64.not_le]
    exact Int64.lt_of_lt_of_le hmtime hclock
  · have hmtime : old.stat.mtime = 0 := by rw [← htrust.1, fpStat_of_failed hfound]
    rw [hracy, isRacilyClean, isRacilyClean, hmtime, decide_eq_decide, FileSystem.lstat, or_iff_right hfound,
      ← Int64.not_le]
    constructor
    · intro h
      exact (em (taken.clock ≤ 0)).symm.imp_right h.mpr
    · rintro (h | h)
      · exact iff_of_false (fun hnow => h (Int64.le_trans hclock hnow)) h
      · exact iff_of_true h (Int64.le_trans hclock h)

theorem retakeFingerprint_of_trusts (h : old.Trusts (F.view s path)) : retakeFingerprint F s timestamp path old =
      .ok ({ old with racilyClean := isRacilyClean old.stat timestamp }, FileId.ofStat (F.lstat s path)) := by
  have hstat : FingerprintStat.fromStat (F.lstat s path) old.stat = old.stat := by
    rw [← h.1, fpStat, FingerprintStat.fromStat, FingerprintStat.fromStat, FileSystem.lstat]
    split <;> rfl
  have hmatch : fingerprintMatchesCurrent F s path old (F.lstat s path) old.hash =
      .ok ({ clean := true, fileId := FileId.ofStat (F.lstat s path) }, old.hash) := by
    rw [fingerprintMatchesCurrent]
    exact if_pos h
  simp only [retakeFingerprint, hmatch, bind, Except.bind, Bool.true_or, if_true, hstat]
  rfl

/-- Retaking a fingerprint gives what taking it gives. A fingerprint that is accepted for its stat
data alone is returned as it is, but for the racily clean flag of a file that is missing: it is
recomputed as if the file had been modified at time zero. -/
theorem retakeFingerprint_eq_takeFingerprint {old : Fingerprint} {taken now : Moment σ}
    {before rest : List (Moment σ)} (hist : History F path FreshInode (now :: rest))
    (hpast : taken :: before <:+ now :: rest) (hold : Obtained F path (taken :: before) old) :
    (∀ r, takeFingerprint F now.fs now.clock path = .ok r → retakeFingerprint F now.fs now.clock path old = .ok r) ∧
    ((F.view now.fs path).readError = none → ∃ r, takeFingerprint F now.fs now.clock path = .ok r) ∧
    ∀ result, fingerprintMatches F now.fs path old = .ok result → result.clean = true → result.shouldUpdate = false →
      (retakeFingerprint F now.fs now.clock path old = .ok (old, FileId.ofStat (F.lstat now.fs path)) ↔
        (F.lstat now.fs path).result = 0 ∨ 0 < taken.clock ∨ now.clock ≤ 0) := by
  have hvalid := hold.validAt (hist.of_suffix hpast (cons_ne_nil _ _))
  refine ⟨fun r htake => ?_, fun hread => ⟨_, takeFingerprint_of_readable F _ hread⟩,
    fun result hmatch hclean hupdate => ?_⟩
  · obtain ⟨⟨fp, id⟩, hretake⟩ := retakeFingerprint_succeeds htake old
    obtain ⟨fp', id'⟩ := r
    obtain ⟨hdescribes, hracy, hid⟩ := takeFingerprint_ok F htake
    obtain ⟨hracy', hid'⟩ := retakeFingerprint_ok hretake
    have hdescribes' := (retakeFingerprint_validAt hvalid hist hpast hretake).describes
    have hstat : fp.stat = fp'.stat := hdescribes'.stat.trans hdescribes.stat.symm
    have hhash : fp.hash = fp'.hash := hdescribes'.hash.trans hdescribes.hash.symm
    have hclean : fp.racilyClean = fp'.racilyClean := by rw [hracy, hracy', hstat]
    have hfp : fp = fp' := Fingerprint.ext hstat hclean hhash
    rw [hretake, hfp, hid, hid']
  · obtain ⟨⟨result', hash⟩, hcurrent, hpure⟩ := bind_eq_ok.mp hmatch
    obtain rfl := pure_eq_ok.mp hpure
    have htrust : old.Trusts (F.view now.fs path) := by
      rcases fingerprintMatchesCurrent_ok F hcurrent with ⟨h, -⟩ | ⟨-, -, -, -, -, h⟩ | ⟨-, h, -⟩
      · exact h
      · exact absurd (hupdate.symm.trans h) Bool.false_ne_true
      · exact absurd (h.symm.trans hclean) Bool.false_ne_true
    rw [retakeFingerprint_of_trusts htrust, ok.injEq, Prod.mk.injEq, and_iff_left rfl]
    refine Iff.trans ?_ (hold.keeps_racilyClean_iff htrust (hist.since hpast).1)
    exact ⟨congrArg Fingerprint.racilyClean, fun h => Fingerprint.ext rfl h rfl⟩

end

def soleFile : FileSystem {v : FileView // v.stat.result ≠ 0 → v.stat.metadata = {}} where
  view s _ := s.val
  stat s _ := s.val.stat
  mkdir s _ := (s, none)
  rmdir s _ := (s, none)
  unlink s _ := (s, none)
  writeFile s _ _ := (s, none)
  blake2b := .ofBytes
  lstat_failed s _ := s.property

def soleFileAt (clock : Int64) (ino : UInt64) (mtime : Int64) (contents : Bytes) :
    Moment {v : FileView // v.stat.result ≠ 0 → v.stat.metadata = {}} where
  clock
  fs := ⟨{ stat := { metadata := { mode := S_IFREG, size := contents.length.toUInt64, ino, dev := 1 }
                     mtime }
           contents }, fun h => absurd rfl h⟩

theorem soleFileAt_hashInput (clock : Int64) (ino : UInt64) (mtime : Int64) (contents : Bytes) (path : Path) :
    let v := soleFile.view (soleFileAt clock ino mtime contents).fs path
    v.hashInput v.fpStat.size v.fpStat.mode =
      some (extraData contents.length.toUInt64 (trackedMode S_IFREG) ++ contents) := by
  intro v
  have hstat : v.fpStat = ⟨contents.length.toUInt64, ino, trackedMode S_IFREG, mtime⟩ := fpStat_of_found rfl
  have hcontents : v.contentsFor S_IFREG = .file contents := rfl
  simp only [hashInput, hstat, contentsFor_trackedMode, hcontents, Contents.hashInput]

theorem soleFileAt_takeFingerprint (clock : Int64) (ino : UInt64) (mtime : Int64) (contents : Bytes) (path : Path) :
    takeFingerprint soleFile (soleFileAt clock ino mtime contents).fs clock path =
      .ok (⟨⟨contents.length.toUInt64, ino, trackedMode S_IFREG, mtime⟩, decide (clock ≤ mtime),
        soleFile.blake2b (extraData contents.length.toUInt64 (trackedMode S_IFREG) ++ contents)⟩, ⟨ino, 1⟩) := by
  rw [takeFingerprint_of_readable soleFile clock rfl, FileSystem.fpDigest, FileSystem.digest,
    soleFileAt_hashInput, fpStat_of_found rfl]
  rfl

theorem soleFile_collisionFree (path : Path)
    {moments : List (Moment {v : FileView // v.stat.result ≠ 0 → v.stat.metadata = {}})}
    (h : ∀ m ∈ moments, ∃ clock ino mtime b, m = soleFileAt clock ino mtime [b]) :
    soleFile.CollisionFree {v | ∃ m ∈ moments, soleFile.view m.fs path = v} := by
  rintro x ⟨v, ⟨m, hm, rfl⟩, hx⟩ y ⟨w, ⟨m', hm', rfl⟩, hy⟩ hxy
  obtain ⟨clock, ino, mtime, b, rfl⟩ := h m hm
  obtain ⟨clock', ino', mtime', b', rfl⟩ := h m' hm'
  rw [soleFileAt_hashInput, Option.some.injEq] at hx hy
  subst hx hy
  have hpad : ∀ c : UInt8, (soleFile.blake2b (extraData 1 (trackedMode S_IFREG) ++ [c])).data =
      extraData 1 (trackedMode S_IFREG) ++ [c, 0, 0, 0] := fun _ => rfl
  have hdata := congrArg Hash.data hxy
  rw [length_singleton, length_singleton] at hdata ⊢
  rw [show (1 : Nat).toUInt64 = 1 from rfl, hpad, hpad, append_cancel_left_eq] at hdata
  rw [cons.inj hdata |>.1]

/-- A file is written in the very second in which its fingerprint is taken. -/
theorem fingerprintMatches_notices_racy_write : let taken := soleFileAt 10 1 10 [1]
    let now := soleFileAt 10 1 10 [2]
    ∃ fp result, Obtained soleFile [97] [taken] fp ∧
      fingerprintMatches soleFile now.fs [97] fp = .ok result ∧ result.clean = false := by
  intro taken now
  have htake := soleFileAt_takeFingerprint 10 1 10 [1] [97]
  have hist : History soleFile [97] FreshInode [now, taken] :=
    .step (.start taken) (by decide) (.written 10 (by decide) (by decide) (by decide))
  have hmoments : ∀ m ∈ [now, taken], ∃ clock ino mtime b, m = soleFileAt clock ino mtime [b] := by
    simp only [mem_cons, not_mem_nil, or_false, forall_eq_or_imp, forall_eq]
    exact ⟨⟨_, _, _, _, rfl⟩, ⟨_, _, _, _, rfl⟩⟩
  obtain ⟨hiff, hok⟩ := fingerprintMatches_clean_iff_state hist (suffix_cons _ _)
    (.take htake) (soleFile_collisionFree [97] hmoments)
  obtain ⟨result, hresult⟩ := hok rfl
  refine ⟨_, result, .take htake, hresult, ?_⟩
  rw [← Bool.not_eq_true, hiff result hresult]
  decide

/-- An inode that comes back after an absence, with its old mtime, hides a modification,
although each of the two modifications changed the inode. -/
theorem fingerprintMatches_misses_returning_inode : let taken := soleFileAt 10 1 5 [1]
    let between := soleFileAt 11 2 5 [1]
    let now := soleFileAt 12 1 5 [2]
    ∃ fp, History soleFile [97] DifferentInode [now, between, taken] ∧ Obtained soleFile [97] [taken] fp ∧
      soleFile.CollisionFree {v | ∃ m ∈ [now, between, taken], soleFile.view m.fs [97] = v} ∧
      fingerprintMatches soleFile now.fs [97] fp = .ok ⟨true, false, ⟨1, 1⟩⟩ ∧
      (soleFile.view now.fs [97]).state ≠ (soleFile.view taken.fs [97]).state := by
  intro taken between now
  have htake := soleFileAt_takeFingerprint 10 1 5 [1] [97]
  refine ⟨_, ?_, .take htake, soleFile_collisionFree [97] ?_,
    fingerprintMatches_of_trusts soleFile ⟨by decide, by decide⟩, by decide⟩
  · refine .step (.step (.start taken) (by decide) (.replaced ?_)) (by decide) (.replaced ?_)
    · rintro v ⟨⟩
      decide
    · rintro v ⟨⟩
      decide
  · simp only [mem_cons, not_mem_nil, or_false, forall_eq_or_imp, forall_eq]
    exact ⟨⟨_, _, _, _, rfl⟩, ⟨_, _, _, _, rfl⟩, ⟨_, _, _, _, rfl⟩⟩

/-- The file is older than its fingerprint and was not touched. -/
theorem retakeFingerprint_of_old_file : let taken := soleFileAt 10 1 5 [1]
    let now := soleFileAt 12 1 5 [1]
    ∃ r, takeFingerprint soleFile taken.fs 10 [97] = .ok r ∧ retakeFingerprint soleFile now.fs 12 [97] r.1 = .ok r := by
  intro taken now
  have htake := soleFileAt_takeFingerprint 10 1 5 [1] [97]
  have hist : History soleFile [97] FreshInode [now, taken] := .step (.start taken) (by decide) (.untouched (.refl _))
  obtain ⟨-, -, hkept⟩ := retakeFingerprint_eq_takeFingerprint hist (suffix_cons _ _) (.take htake)
  exact ⟨_, htake, (hkept _ (fingerprintMatches_of_trusts soleFile ⟨by decide, .inl rfl⟩) rfl rfl).mpr (.inl rfl)⟩

def noFileAt (clock : Int64) : Moment {v : FileView // v.stat.result ≠ 0 → v.stat.metadata = {}} where
  clock
  fs := ⟨{ stat := { result := ENOENT } }, fun _ => rfl⟩

/-- The fingerprint of a missing file was taken at time zero and is retaken later. -/
theorem retakeFingerprint_changes_missing_file : let taken := noFileAt 0
    let now := noFileAt 1
    ∃ old fp id, History soleFile [97] FreshInode [now, taken] ∧
      soleFile.CollisionFree {v | ∃ m ∈ [now, taken], soleFile.view m.fs [97] = v} ∧
      takeFingerprint soleFile taken.fs 0 [97] = .ok (old, id) ∧
      fingerprintMatches soleFile now.fs [97] old = .ok { clean := true, shouldUpdate := false, fileId := id } ∧
      retakeFingerprint soleFile now.fs 1 [97] old = .ok (fp, id) ∧ fp ≠ old := by
  intro taken now
  have htake : takeFingerprint soleFile taken.fs 0 [97] = .ok ({ racilyClean := true }, {}) := by
    rw [takeFingerprint_of_readable soleFile 0 rfl, ok.injEq]
    decide +kernel
  have htrust : Fingerprint.Trusts { racilyClean := true } (soleFile.view now.fs [97]) := ⟨rfl, .inr rfl⟩
  refine ⟨{ racilyClean := true }, _, _, .step (.start taken) (by decide) (.deleted (by decide)), ?_, htake,
    fingerprintMatches_of_trusts soleFile htrust, retakeFingerprint_of_trusts htrust, by decide⟩
  have hnone : ∀ m ∈ [now, taken], (soleFile.view m.fs [97]).hashInput (soleFile.view m.fs [97]).fpStat.size
      (soleFile.view m.fs [97]).fpStat.mode = none := by
    rintro m (_ | ⟨_, _ | ⟨_, ⟨⟩⟩⟩)
    · decide +kernel
    · decide +kernel
  rintro x ⟨v, ⟨m, hm, rfl⟩, hx⟩
  rw [hnone m hm] at hx
  nomatch hx

end Shuriken
