import Shuriken.Log.Records
import Shuriken.Log.View

/-!
# The parser follows the writer

Whatever records an operation of the log appends, a parser that has come to the end of the log before them
reads them, and again has the writer's own counters and maps.
-/
namespace Shuriken
open Option Function RecordStream List PersistentInvocationLog

def Record.isPath : Record → Bool
  | .path _ => true
  | _ => false

def Record.isFingerprint : Record → Bool
  | .fingerprint _ _ => true
  | _ => false

/-- The state of a parser from which a writer can go on: ids lead back to what they are the
ids of. -/
structure Parsing.Coherent (st : Parsing) : Prop where
  path : ∀ path id, st.pathIds.lookup path = some id → st.pathsById[id.toNat]? = some path
  named : ∀ path ∈ st.pathsById, (st.pathIds.lookup path).isSome
  fingerprint : ∀ path value, st.fingerprintIds.lookup path = some value →
    fileAt st.invocations.fingerprints value.recordId = some (path, value.fingerprint)
  notDir : ∀ path value, st.fingerprintIds.lookup path = some value → value.fingerprint.stat.isDir = false
  index : ∀ hash entry, st.invocations.entries.lookup hash = some entry →
    ∀ id ∈ entry.outputFiles ++ entry.inputFiles, id.toNat < st.invocations.fingerprints.length
  paths : st.pathsById.length ≤ 2 ^ 32
  fingerprints : st.invocations.fingerprints.length < 2 ^ 32

/-- The records fit into the format when they are added to the log that was read: the sizes
fit into headers and the ids into words. -/
structure Parsing.Room (st : Parsing) (records : List Record) : Prop where
  sizes : ∀ r ∈ records, r.entrySize < 2 ^ 32
  paths : st.pathsById.length + records.countP Record.isPath ≤ 2 ^ 32
  fingerprints : st.invocations.fingerprints.length + records.countP Record.isFingerprint < 2 ^ 32

/-- The writer's maps and counters are those that a parse of the log gives. -/
structure Mirrors (log : PersistentInvocationLog) (st : Parsing) : Prop where
  parseData : log.parseData = st.parseData
  coherent : st.Coherent

section
variable (order : EvalOrder) (lstat : Path → Stat)

structure Reaches (records : List Record) (st st' : Parsing) : Prop where
  reads : Reads logFraming (Parsing.parseEntry order lstat) st (records.flatMap Record.bytes) st'
  coherent : st'.Coherent
  paths : st'.pathsById.length = st.pathsById.length + records.countP Record.isPath
  fingerprints : st'.invocations.fingerprints.length =
    st.invocations.fingerprints.length + records.countP Record.isFingerprint
  grows : st.invocations.fingerprints <+: st'.invocations.fingerprints

/-- Reading has the given effect when it has come to the end of the records. It can also stop
after any of them. -/
structure Advances (records : List Record) (f : LogView → LogView) (st st' : Parsing) : Prop
    extends Reaches order lstat records st st' where
  stages : ∀ front, front <+: records → ∃ mid, Reaches order lstat front st mid
  shows : ∀ v, st.Shows v → st'.Shows (f v)

/-- A part of an operation on the log, from `log` to `log'`, has the effect `f` on the view.
The conditions are on the parser's state before and after. -/
def Emits (pre : Parsing → Prop) (log log' : PersistentInvocationLog) (f : LogView → LogView)
    (post : Parsing → Prop) : Prop :=
  ∃ records, log'.written = log.written ++ records ∧ log'.existing = log.existing ∧
    ∀ st, Mirrors log st → pre st → st.Room records →
      ∃ st', Advances order lstat records f st st' ∧ Mirrors log' st' ∧ post st'

end

section
variable {order : EvalOrder} {lstat : Path → Stat} {log log' log'' : PersistentInvocationLog}
  {pre mid post : Parsing → Prop} {f g : LogView → LogView}

theorem Reaches.nil {st : Parsing} (h : st.Coherent) : Reaches order lstat [] st st where
  reads := .nil st
  coherent := h
  paths := rfl
  fingerprints := rfl
  grows := prefix_rfl

theorem Reaches.trans {rs rs' : List Record} {st st' st'' : Parsing} (h : Reaches order lstat rs st st')
    (h' : Reaches order lstat rs' st' st'') : Reaches order lstat (rs ++ rs') st st'' where
  reads := by
    rw [flatMap_append]
    exact h.reads.append h'.reads
  coherent := h'.coherent
  paths := by rw [h'.paths, h.paths, countP_append, Nat.add_assoc]
  fingerprints := by rw [h'.fingerprints, h.fingerprints, countP_append, Nat.add_assoc]
  grows := h.grows.trans h'.grows

theorem Advances.nil {st : Parsing} (h : st.Coherent) : Advances order lstat [] id st st where
  toReaches := .nil h
  stages front hfront := by
    rw [prefix_nil.mp hfront]
    exact ⟨st, .nil h⟩
  shows _ hv := hv

theorem Advances.trans {rs rs' : List Record} {st st' st'' : Parsing} (h : Advances order lstat rs f st st')
    (h' : Advances order lstat rs' g st' st'') :
    Advances order lstat (rs ++ rs') (g ∘ f) st st'' where
  toReaches := h.toReaches.trans h'.toReaches
  stages front hfront := by
    rcases prefix_or_prefix_of_prefix hfront (prefix_append rs rs') with
      hfront | ⟨front', rfl⟩
    · exact h.stages front hfront
    · obtain ⟨mid, hmid⟩ := h'.stages front' ((prefix_append_right_inj rs).mp hfront)
      exact ⟨mid, h.toReaches.trans hmid⟩
  shows v hv := h'.shows _ (h.shows v hv)

theorem Parsing.Room.left {rs rs' : List Record} {st : Parsing} (h : st.Room (rs ++ rs')) : st.Room rs := by
  refine ⟨fun r hr => h.sizes r (mem_append_left _ hr), ?_, ?_⟩
  · have hpaths := h.paths
    rw [countP_append] at hpaths
    omega
  · have hfingerprints := h.fingerprints
    rw [countP_append] at hfingerprints
    omega

theorem Reaches.room_right {rs rs' : List Record} {st st' : Parsing}
    (h : Reaches order lstat rs st st') (hroom : st.Room (rs ++ rs')) : st'.Room rs' := by
  refine ⟨fun r hr => hroom.sizes r (mem_append_right _ hr), ?_, ?_⟩
  · have hpaths := hroom.paths
    rw [countP_append] at hpaths
    rw [h.paths]
    omega
  · have hfingerprints := hroom.fingerprints
    rw [countP_append] at hfingerprints
    rw [h.fingerprints]
    omega

theorem Emits.trans (h : Emits order lstat pre log log' f mid) (h' : Emits order lstat mid log' log'' g post) :
    Emits order lstat pre log log'' (g ∘ f) post := by
  obtain ⟨rs, hwritten, hexisting, hstep⟩ := h
  obtain ⟨rs', hwritten', hexisting', hstep'⟩ := h'
  refine ⟨rs ++ rs', by rw [hwritten', hwritten, append_assoc], hexisting'.trans hexisting, ?_⟩
  intro st hmirrors hpre hroom
  obtain ⟨st', hadvances, hmirrors', hmid⟩ := hstep st hmirrors hpre hroom.left
  obtain ⟨st'', hadvances', hmirrors'', hpost⟩ := hstep' st' hmirrors' hmid (hadvances.toReaches.room_right hroom)
  exact ⟨st'', hadvances.trans hadvances', hmirrors'', hpost⟩

theorem Emits.refl : Emits order lstat pre log log id pre :=
  ⟨[], (append_nil _).symm, rfl, fun st hmirrors hpre _ => ⟨st, .nil hmirrors.coherent, hmirrors, hpre⟩⟩

def Lasting (p : Parsing → Prop) : Prop :=
  ∀ ⦃st st' : Parsing⦄, st.invocations.fingerprints <+: st'.invocations.fingerprints → p st → p st'

theorem Emits.frame {p : Parsing → Prop} (h : Emits order lstat pre log log' f post) (hp : Lasting p) :
    Emits order lstat (fun st => pre st ∧ p st) log log' f (fun st => post st ∧ p st) := by
  obtain ⟨rs, hwritten, hexisting, hstep⟩ := h
  refine ⟨rs, hwritten, hexisting, fun st hmirrors hpre hroom => ?_⟩
  obtain ⟨st', hadvances, hmirrors', hpost⟩ := hstep st hmirrors hpre.1 hroom
  exact ⟨st', hadvances, hmirrors', hpost, hp hadvances.grows hpre.2⟩

theorem Emits.imp {pre' post' : Parsing → Prop} (h : Emits order lstat pre log log' f post)
    (hpre : ∀ st, pre' st → pre st) (hpost : ∀ st, post st → post' st) : Emits order lstat pre' log log' f post' := by
  obtain ⟨rs, hwritten, hexisting, hstep⟩ := h
  refine ⟨rs, hwritten, hexisting, fun st hmirrors hpre' hroom => ?_⟩
  obtain ⟨st', hadvances, hmirrors', hpost'⟩ := hstep st hmirrors (hpre st hpre') hroom
  exact ⟨st', hadvances, hmirrors', hpost st' hpost'⟩

end

namespace Parsing
variable {lstat : Path → Stat} {st : Parsing} {v : LogView}

theorem toNat_ofNat {n : Nat} (h : n < 2 ^ 32) : (UInt32.ofNat n).toNat = n := by
  rw [UInt32.toNat_ofNat', Nat.mod_eq_of_lt h]

theorem Coherent.addPath (h : st.Coherent) {path : Path} (hcount : st.pathsById.length < 2 ^ 32) :
    (st.addPath path).Coherent where
  path p id hid := by
    rcases Finmap.lookup_of_insert hid with ⟨rfl, rfl⟩ | hid
    · simp only [Parsing.addPath, toNat_ofNat hcount, getElem?_concat_length]
    · have hold := h.path p id hid
      have hlt := (List.getElem?_eq_some_iff.mp hold).1
      exact (getElem?_append_left hlt).trans hold
  named p hp := by
    by_cases heq : p = path
    · subst heq
      simp only [Parsing.addPath, Finmap.lookup_insert, isSome_some]
    · simp only [Parsing.addPath, mem_append, mem_singleton, heq, or_false] at hp
      simpa only [Parsing.addPath, Finmap.lookup_insert_of_ne _ heq] using h.named p hp
  fingerprint := h.fingerprint
  notDir := h.notDir
  index := h.index
  paths := by
    simp only [Parsing.addPath, length_append, length_singleton]
    omega
  fingerprints := h.fingerprints

theorem Shows.addPath (h : st.Shows v) (path : Path) : (st.addPath path).Shows (v.addPath path) where
  represents := ⟨h.represents.commands, h.represents.directories⟩
  known p := by
    by_cases heq : p = path
    · subst heq
      simp only [LogView.addPath, update_self, Parsing.addPath, Finmap.lookup_insert, isSome_some]
    · simp only [LogView.addPath, update_of_ne heq, Parsing.addPath, Finmap.lookup_insert_of_ne _ heq, h.known]

variable {fps : List (Path × Fingerprint)}

theorem fileAt_append {id : UInt32} (h : id.toNat < fps.length)
    (fps' : List (Path × Fingerprint)) : fileAt (fps ++ fps') id = fileAt fps id :=
  getElem?_append_left h

theorem Coherent.addFingerprint (h : st.Coherent) {path : Path} {fp : Fingerprint} (hdir : fp.stat.isDir = false)
    (hcount : st.invocations.fingerprints.length + 1 < 2 ^ 32) :
    (st.addFingerprint path fp).Coherent where
  path := h.path
  named := h.named
  fingerprint p value hvalue := by
    rcases Finmap.lookup_of_insert hvalue with ⟨rfl, rfl⟩ | hvalue
    · simp only [Parsing.addFingerprint, fileAt, toNat_ofNat (Nat.lt_of_succ_lt hcount), getElem?_concat_length]
    · have hold := h.fingerprint p value hvalue
      have hlt := (List.getElem?_eq_some_iff.mp hold).1
      exact (fileAt_append hlt _).trans hold
  notDir p value hvalue := by
    rcases Finmap.lookup_of_insert hvalue with ⟨rfl, rfl⟩ | hvalue
    · exact hdir
    · exact h.notDir p value hvalue
  index hash entry hentry id hid := by
    have hlt := h.index hash entry hentry id hid
    simp only [Parsing.addFingerprint, length_append, length_singleton]
    omega
  paths := h.paths
  fingerprints := by
    simp only [Parsing.addFingerprint, length_append, length_singleton]
    exact hcount

variable {ids : List UInt32}

theorem map_fileAt_append (h : ∀ id ∈ ids, id.toNat < fps.length) (fps' : List (Path × Fingerprint)) :
    ids.map (fileAt (fps ++ fps')) = ids.map (fileAt fps) :=
  map_congr_left fun id hid => fileAt_append (h id hid) fps'

theorem Shows.addFingerprint (h : st.Shows v) (hst : st.Coherent) (path : Path) (fp : Fingerprint) :
    (st.addFingerprint path fp).Shows v where
  represents := by
    refine ⟨fun hash => ?_, h.represents.directories⟩
    have hrel := h.represents.commands hash
    have hindex := hst.index hash
    simp only [Parsing.addFingerprint]
    generalize st.invocations.entries.lookup hash = entry at hrel hindex ⊢
    generalize v.commands hash = command at hrel ⊢
    cases hrel with
    | none => exact .none
    | some hrefers =>
      have hlt := hindex _ rfl
      refine .some ⟨?_, ?_, hrefers.ignored, hrefers.additional⟩
      · rw [map_fileAt_append fun id hid => hlt id (mem_append_left _ hid), hrefers.outputs]
      · rw [map_fileAt_append fun id hid => hlt id (mem_append_right _ hid), hrefers.inputs]
  known := h.known

theorem createdDirectory_eq (lstat : Path → Stat) (st : Parsing) (path : Path) :
    st.createdDirectory lstat path = { st with invocations.createdDirectories :=
      (st.createdDirectory lstat path).invocations.createdDirectories } := by
  unfold createdDirectory
  split <;> rfl

theorem deletedDirectory_eq (lstat : Path → Stat) (st : Parsing) (path : Path) :
    st.deletedDirectory lstat path = { st with invocations.createdDirectories :=
      (st.deletedDirectory lstat path).invocations.createdDirectories } := by
  unfold deletedDirectory
  split <;> rfl

theorem Coherent.directories (h : st.Coherent) (directories : Finmap fun _ : FileId => Path) :
    { st with invocations.createdDirectories := directories : Parsing }.Coherent :=
  ⟨h.path, h.named, h.fingerprint, h.notDir, h.index, h.paths, h.fingerprints⟩

theorem Shows.createdDirectory (h : st.Shows v) (path : Path) :
    (st.createdDirectory lstat path).Shows (v.addDirectory lstat path) := by
  unfold Parsing.createdDirectory LogView.addDirectory
  split
  · refine ⟨⟨h.represents.commands, fun id => ?_⟩, h.known⟩
    by_cases heq : id = FileId.ofStat (lstat path)
    · subst heq
      simp only [Finmap.lookup_emplace_self, update_self, h.represents.directories]
    · simp only [Finmap.lookup_emplace_of_ne _ _ heq, update_of_ne heq, h.represents.directories]
  · exact h

theorem Shows.deletedDirectory (h : st.Shows v) (path : Path) :
    (st.deletedDirectory lstat path).Shows (v.removeDirectory lstat path) := by
  unfold Parsing.deletedDirectory LogView.removeDirectory
  split
  · refine ⟨⟨h.represents.commands, fun id => ?_⟩, h.known⟩
    by_cases heq : id = FileId.ofStat (lstat path)
    · subst heq
      simp only [Finmap.lookup_erase, update_self]
    · simp only [Finmap.lookup_erase_ne heq, update_of_ne heq, h.represents.directories]
  · exact h

theorem Coherent.setEntry (h : st.Coherent) {hash : Hash} {entry : InvocationEntry}
    (hindex : ∀ id ∈ entry.outputFiles ++ entry.inputFiles, id.toNat < st.invocations.fingerprints.length) :
    (st.setEntry hash entry).Coherent where
  path := h.path
  named := h.named
  fingerprint := h.fingerprint
  notDir := h.notDir
  index hash' entry' hentry := by
    rcases Finmap.lookup_of_insert hentry with ⟨rfl, rfl⟩ | hentry
    · exact hindex
    · exact h.index hash' entry' hentry
  paths := h.paths
  fingerprints := h.fingerprints

theorem Shows.setEntry (h : st.Shows v) {hash : Hash} {entry : InvocationEntry} {command : LoggedCommand}
    (hrefers : entry.RefersTo st.invocations.fingerprints command) :
    (st.setEntry hash entry).Shows (v.setCommand hash (some command)) where
  represents := by
    refine ⟨fun hash' => ?_, h.represents.directories⟩
    by_cases heq : hash' = hash
    · subst heq
      simp only [Parsing.setEntry, Finmap.lookup_insert, LogView.setCommand, update_self]
      exact .some hrefers
    · simp only [Parsing.setEntry, Finmap.lookup_insert_of_ne _ heq, LogView.setCommand, update_of_ne heq]
      exact h.represents.commands hash'
  known := h.known

theorem Coherent.deleteEntry (h : st.Coherent) (hash : Hash) : (st.deleteEntry hash).Coherent where
  path := h.path
  named := h.named
  fingerprint := h.fingerprint
  notDir := h.notDir
  index hash' entry' hentry := h.index hash' entry' (Finmap.lookup_of_erase hentry).2
  paths := h.paths
  fingerprints := h.fingerprints

theorem Shows.deleteEntry (h : st.Shows v) (hash : Hash) :
    (st.deleteEntry hash).Shows (v.setCommand hash none) where
  represents := by
    refine ⟨fun hash' => ?_, h.represents.directories⟩
    by_cases heq : hash' = hash
    · subst heq
      simp only [Parsing.deleteEntry, Finmap.lookup_erase, LogView.setCommand, update_self]
      exact .none
    · simp only [Parsing.deleteEntry, Finmap.lookup_erase_ne heq, LogView.setCommand, update_of_ne heq]
      exact h.represents.commands hash'
  known := h.known

theorem Coherent.counted (h : st.Coherent) : st.counted.Coherent :=
  ⟨h.path, h.named, h.fingerprint, h.notDir, h.index, h.paths, h.fingerprints⟩

theorem Shows.counted (h : st.Shows v) : st.counted.Shows v :=
  ⟨⟨h.represents.commands, h.represents.directories⟩, h.known⟩

end Parsing

section
variable {order : EvalOrder} {lstat : Path → Stat} {log log' : PersistentInvocationLog}
  {pre post : Parsing → Prop} {f : LogView → LogView}

/-- The parser accepts a record and has then come to `next`, but for the count of entries. -/
structure Accepts (order : EvalOrder) (lstat : Path → Stat) (r : Record) (f : LogView → LogView)
    (log' : PersistentInvocationLog) (st next : Parsing) : Prop where
  parse : st.parseRecord order lstat r = .ok next.counted
  mirrors : Mirrors log' next
  paths : next.pathsById.length = st.pathsById.length + [r].countP Record.isPath
  fingerprints : next.invocations.fingerprints.length =
    st.invocations.fingerprints.length + [r].countP Record.isFingerprint
  grows : st.invocations.fingerprints <+: next.invocations.fingerprints
  shows : ∀ v, st.Shows v → next.Shows (f v)

theorem Emits.record {r : Record} (hwritten : log'.written = log.written ++ [r])
    (hexisting : log'.existing = log.existing)
    (hstep : ∀ st, Mirrors log st → pre st → st.Room [r] →
      ∃ next, Accepts order lstat r f log' st next ∧ post next.counted) :
    Emits order lstat pre log log' f post := by
  refine ⟨[r], hwritten, hexisting, fun st hmirrors hpre hroom => ?_⟩
  obtain ⟨next, haccepts, hpost⟩ := hstep st hmirrors hpre hroom
  refine ⟨next.counted, ?_, ⟨haccepts.mirrors.parseData, haccepts.mirrors.coherent.counted⟩, hpost⟩
  have hreaches : Reaches order lstat [r] st next.counted := by
    refine ⟨?_, haccepts.mirrors.coherent.counted, haccepts.paths, haccepts.fingerprints, haccepts.grows⟩
    rw [flatMap_singleton]
    exact .single (frame_bytes r (hroom.sizes r (mem_singleton_self r))) haccepts.parse
  refine ⟨hreaches, fun front hfront => ?_, fun v hv => (haccepts.shows v hv).counted⟩
  rcases prefix_cons_iff.mp hfront with rfl | ⟨rest, rfl, hrest⟩
  · exact ⟨st, .nil hmirrors.coherent⟩
  · rw [prefix_nil.mp hrest]
    exact ⟨next.counted, hreaches⟩

theorem uint32_ofNat_succ (n : Nat) : UInt32.ofNat (n + 1) = UInt32.ofNat n + 1 := UInt32.ofNat_add n 1

theorem emits_ensurePathIsWritten (log : PersistentInvocationLog) {path : Path} (hpath : Unpadded path) :
    Emits order lstat (fun _ => True) log (log.ensurePathIsWritten path).1 (LogView.addPath path)
      fun st => st.pathsById[(log.ensurePathIsWritten path).2.toNat]? = some path := by
  unfold ensurePathIsWritten
  cases hlookup : log.pathIds.lookup path with
  | some id =>
    refine ⟨[], (append_nil _).symm, rfl, fun st hmirrors _ _ => ?_⟩
    have hids : st.pathIds.lookup path = some id := by
      rw [← hlookup]
      exact congrArg (fun data => data.pathIds.lookup path) hmirrors.parseData.symm
    refine ⟨st, { Advances.nil hmirrors.coherent with shows := fun v hv => ?_ }, hmirrors,
      hmirrors.coherent.path path id hids⟩
    have hknown : v.known path = true := by rw [hv.known, hids, isSome_some]
    rw [LogView.addPath, ← hknown, update_eq_self]
    exact hv
  | none =>
    refine .record rfl rfl fun st hmirrors _ hroom => ?_
    have hcount : st.pathsById.length < 2 ^ 32 := hroom.paths
    have hdata := hmirrors.parseData
    simp only [parseData, Parsing.parseData, ParseData.mk.injEq] at hdata
    obtain ⟨hpaths, hfingerprints, hfingerprintCount, hpathCount⟩ := hdata
    refine ⟨st.addPath path, ⟨st.parseRecord_path order lstat hpath, ⟨?_, ?_⟩, ?_, rfl, ?_, ?_⟩, ?_⟩
    · simp only [parseData, writePathEntry,
        write, Parsing.parseData, Parsing.addPath, hpaths, hfingerprints,
        hfingerprintCount, hpathCount, length_append, length_singleton,
        uint32_ofNat_succ]
    · exact hmirrors.coherent.addPath hcount
    · exact length_append
    · exact prefix_rfl
    · exact fun v hv => hv.addPath path
    · simp only [hpathCount, Parsing.counted, Parsing.addPath, Parsing.toNat_ofNat hcount, getElem?_concat_length]

theorem emits_writeDirectoryEntry (log : PersistentInvocationLog) (pathId : UInt32) (path : Path) :
    Emits order lstat (fun st => st.pathsById[pathId.toNat]? = some path) log
      (log.writeDirectoryEntry pathId) (LogView.addDirectory lstat path) fun _ => True := by
  refine .record rfl rfl fun st hmirrors hpre hroom => ?_
  have heq := Parsing.createdDirectory_eq lstat st path
  refine ⟨st.createdDirectory lstat path, ⟨Parsing.parseRecord_createdDir order lstat hpre, ?_, ?_, ?_,
    ?_, fun v hv => hv.createdDirectory path⟩, trivial⟩
  · rw [heq]
    exact ⟨hmirrors.parseData, hmirrors.coherent.directories _⟩
  · rw [heq]
    rfl
  · rw [heq]
    rfl
  · rw [heq]

theorem emits_deletedDir (log : PersistentInvocationLog) (pathId : UInt32) (path : Path) :
    Emits order lstat (fun st => st.pathsById[pathId.toNat]? = some path) log
      (log.write (.deletedDir pathId)) (LogView.removeDirectory lstat path) fun _ => True := by
  refine .record rfl rfl fun st hmirrors hpre hroom => ?_
  have heq := Parsing.deletedDirectory_eq lstat st path
  refine ⟨st.deletedDirectory lstat path, ⟨Parsing.parseRecord_deletedDir order lstat hpre, ?_, ?_, ?_,
    ?_, fun v hv => hv.deletedDirectory path⟩, trivial⟩
  · rw [heq]
    exact ⟨hmirrors.parseData, hmirrors.coherent.directories _⟩
  · rw [heq]
    rfl
  · rw [heq]
    rfl
  · rw [heq]

/-- The id that a file of a command is logged with, if it is logged at all. -/
def LoggedAs (file : Path × Fingerprint) (id : UInt32) (st : Parsing) : Prop :=
  if file.2.stat.isDir then id = kInvalidEntry
  else id ≠ kInvalidEntry ∧ fileAt st.invocations.fingerprints id = some file

theorem lasting_fileAt (id : UInt32) (file : Path × Fingerprint) :
    Lasting fun st => fileAt st.invocations.fingerprints id = some file := by
  rintro st st' ⟨fps, hgrows⟩ h
  have hlt := (List.getElem?_eq_some_iff.mp h).1
  rw [← hgrows, Parsing.fileAt_append hlt]
  exact h

theorem lasting_loggedAs (file : Path × Fingerprint) (id : UInt32) : Lasting (LoggedAs file id) := by
  intro st st' hgrows h
  unfold LoggedAs at h ⊢
  split at h
  · rw [if_pos ‹_›]
    exact h
  · rw [if_neg ‹_›]
    exact ⟨h.1, lasting_fileAt id file hgrows h.2⟩

variable {file : Path × Fingerprint}

theorem ne_kInvalidEntry_of_fileAt {st : Parsing} (hst : st.Coherent) {id : UInt32}
    (h : fileAt st.invocations.fingerprints id = some file) : id ≠ kInvalidEntry := by
  rintro rfl
  have hlt := (List.getElem?_eq_some_iff.mp h).1
  have hmax : kInvalidEntry.toNat = 2 ^ 32 - 1 := by decide
  have hcount := hst.fingerprints
  omega

theorem emits_writeFingerprintOrDirectoryEntry (log : PersistentInvocationLog) (pathId : UInt32)
    (path : Path) (fp : Fingerprint) (type : WriteType) :
    Emits order lstat (fun st => st.pathsById[pathId.toNat]? = some path) log
      (log.writeFingerprintOrDirectoryEntry pathId path fp type).1
      (if fp.stat.isDir ∧ type = .directoryAsDirectoryEntry then LogView.addDirectory lstat path else id)
      (LoggedAs (path, fp) (log.writeFingerprintOrDirectoryEntry pathId path fp type).2) := by
  unfold writeFingerprintOrDirectoryEntry LoggedAs
  by_cases hdir : fp.stat.isDir
  · simp only [hdir, if_true, true_and]
    by_cases htype : type = .directoryAsDirectoryEntry
    · simp only [htype, if_true]
      exact (emits_writeDirectoryEntry log pathId path).imp (fun _ h => h) fun _ _ => trivial
    · simp only [htype, if_false]
      exact Emits.refl.imp (fun _ h => h) fun _ _ => trivial
  · simp only [hdir, Bool.false_eq_true, if_false, false_and]
    refine .record rfl rfl fun st hmirrors hpre hroom => ?_
    have hcount : st.invocations.fingerprints.length + 1 < 2 ^ 32 := hroom.fingerprints
    have hnotDir : fp.stat.isDir = false := by simpa using hdir
    have hdata := hmirrors.parseData
    simp only [parseData, Parsing.parseData, ParseData.mk.injEq] at hdata
    obtain ⟨hpaths, hfingerprints, hfingerprintCount, hpathCount⟩ := hdata
    have hcoherent : (st.addFingerprint path fp).Coherent := hmirrors.coherent.addFingerprint hnotDir hcount
    have hfile : fileAt (st.addFingerprint path fp).invocations.fingerprints
        log.fingerprintEntryCount = some (path, fp) := by
      simp only [hfingerprintCount, fileAt, Parsing.addFingerprint,
        Parsing.toNat_ofNat (Nat.lt_of_succ_lt hcount), getElem?_concat_length]
    refine ⟨st.addFingerprint path fp, ⟨Parsing.parseRecord_fingerprint order lstat fp hpre,
      ⟨?_, hcoherent⟩, rfl, length_append, prefix_append _ _,
      fun v hv => hv.addFingerprint hmirrors.coherent path fp⟩,
      ne_kInvalidEntry_of_fileAt hcoherent hfile, hfile⟩
    simp only [parseData, writeFingerprintEntry,
      write, Parsing.parseData, Parsing.addFingerprint, hpaths,
      hfingerprints, hfingerprintCount, hpathCount, length_append, length_singleton,
      uint32_ofNat_succ]

theorem emits_reuse {path : Path} {old : FingerprintIdsValue}
    (h : log.fingerprintIds.lookup path = some old) (type : WriteType) : Emits order lstat pre log log
      (if old.fingerprint.stat.isDir ∧ type = .directoryAsDirectoryEntry then LogView.addDirectory lstat path else id)
      (LoggedAs (path, old.fingerprint) old.recordId) := by
  refine ⟨[], (append_nil _).symm, rfl, fun st hmirrors _ _ => ?_⟩
  have hids : st.fingerprintIds.lookup path = some old := by
    rw [← h]
    exact congrArg (fun data => data.fingerprintIds.lookup path) hmirrors.parseData.symm
  have hnotDir := hmirrors.coherent.notDir path old hids
  have hfile := hmirrors.coherent.fingerprint path old hids
  refine ⟨st, ?_, hmirrors, ?_⟩
  · simp only [hnotDir, Bool.false_eq_true, false_and, if_false]
    exact .nil hmirrors.coherent
  · simp only [LoggedAs, hnotDir, Bool.false_eq_true, if_false]
    exact ⟨ne_kInvalidEntry_of_fileAt hmirrors.coherent hfile, hfile⟩

theorem addFile_eq (lstat : Path → Stat) (type : WriteType) (path : Path) (fp : Fingerprint) :
    LogView.addFile lstat type (path, fp) =
      (if fp.stat.isDir ∧ type = .directoryAsDirectoryEntry then LogView.addDirectory lstat path
        else id) ∘ LogView.addPath path := by
  funext v
  unfold LogView.addFile
  split <;> rfl

theorem emits_ensureRecentFingerprintIsWritten (log : PersistentInvocationLog) {path : Path}
    (hpath : Unpadded path) (fp : Fingerprint) (type : WriteType) :
    Emits order lstat (fun _ => True) log (log.ensureRecentFingerprintIsWritten path fp type).1
      (LogView.addFile lstat type (path, fp))
      (LoggedAs (path, fp) (log.ensureRecentFingerprintIsWritten path fp type).2) := by
  rw [addFile_eq]
  refine (emits_ensurePathIsWritten log hpath).trans ?_
  unfold ensureRecentFingerprintIsWritten
  generalize log.ensurePathIsWritten path = known
  obtain ⟨log', pathId⟩ := known
  simp only
  cases hlookup : log'.fingerprintIds.lookup path with
  | none => exact emits_writeFingerprintOrDirectoryEntry log' pathId path fp type
  | some old =>
    simp only
    split
    · exact emits_writeFingerprintOrDirectoryEntry log' pathId path fp type
    · rename_i hsame
      obtain rfl := not_not.mp hsame
      exact emits_reuse hlookup type

def LoggedIds (files : List (Path × Fingerprint)) (ids : List UInt32) (st : Parsing) : Prop :=
  ids.map (fileAt st.invocations.fingerprints) = (files.filter notDirectory).map some

variable {files : List (Path × Fingerprint)}

theorem LoggedIds.index_lt {st : Parsing} (h : LoggedIds files ids st) {id : UInt32} (hid : id ∈ ids) :
    id.toNat < st.invocations.fingerprints.length := by
  have hmem : fileAt st.invocations.fingerprints id ∈ (files.filter notDirectory).map some := by
    rw [← h]
    exact mem_map_of_mem hid
  obtain ⟨file, -, hfile⟩ := mem_map.mp hmem
  exact (List.getElem?_eq_some_iff.mp hfile.symm).1

theorem LoggedIds.lasting (files : List (Path × Fingerprint)) (ids : List UInt32) : Lasting (LoggedIds files ids) := by
  rintro st st' ⟨fps, hgrows⟩ h
  unfold LoggedIds at h ⊢
  rw [← hgrows, Parsing.map_fileAt_append fun id hid => LoggedIds.index_lt h hid, h]

theorem LoggedIds.cons {id : UInt32} {st : Parsing} (hfile : LoggedAs file id st) (hfiles : LoggedIds files ids st) :
    LoggedIds (file :: files) (if id ≠ kInvalidEntry then id :: ids else ids) st := by
  unfold LoggedAs at hfile
  unfold LoggedIds at hfiles ⊢
  cases hdir : file.2.stat.isDir with
  | true =>
    simp only [hdir, if_true] at hfile
    rw [if_neg (not_not.mpr hfile), filter_cons_of_neg (by simp [notDirectory, hdir]), hfiles]
  | false =>
    simp only [hdir, Bool.false_eq_true, if_false] at hfile
    rw [if_pos hfile.1, filter_cons_of_pos (by simp [notDirectory, hdir]), map_cons,
      map_cons, hfiles, hfile.2]

theorem emits_writePathsAndFingerprints (type : WriteType) (files : List (Path × Fingerprint))
    (hpaths : ∀ file ∈ files, Unpadded file.1) (log : PersistentInvocationLog) :
    Emits order lstat (fun _ => True) log (log.writePathsAndFingerprints type files).1
      (LogView.addFiles lstat type files)
      (LoggedIds files (log.writePathsAndFingerprints type files).2) := by
  induction files generalizing log with
  | nil => exact Emits.refl.imp (fun _ h => h) fun _ _ => rfl
  | cons file files ih =>
    obtain ⟨path, fp⟩ := file
    have hfirst : Emits order lstat _ log _ _ _ :=
      emits_ensureRecentFingerprintIsWritten log (hpaths _ mem_cons_self) fp type
    have hrest := (ih (fun file hfile => hpaths file (mem_cons_of_mem _ hfile))
      (log.ensureRecentFingerprintIsWritten path fp type).1).frame
        (lasting_loggedAs (path, fp) (log.ensureRecentFingerprintIsWritten path fp type).2)
    refine (hfirst.trans (hrest.imp (fun st h => ⟨trivial, h⟩) fun st h => h)).imp (fun _ h => h) ?_
    rintro st ⟨hfiles, hfile⟩
    exact .cons hfile hfiles

theorem emits_invocation (log : PersistentInvocationLog) (c : RanCommand) (outputFpIds inputFpIds : List UInt32) :
    Emits order lstat
      (fun st => LoggedIds c.inputFiles inputFpIds st ∧ LoggedIds c.outputFiles outputFpIds st) log
      (log.write (.invocation c.buildStepHash c.ignoredDependencies c.additionalDependencies
        outputFpIds inputFpIds))
      (LogView.setCommand c.buildStepHash (some c.logged)) fun _ => True := by
  refine .record rfl rfl fun st hmirrors hpre hroom => ?_
  obtain ⟨hinputs, houtputs⟩ := hpre
  have hsize := hroom.sizes _ (mem_singleton_self _)
  simp only [Record.entrySize, sizeofUInt32, kHashSize] at hsize
  have hindex : ∀ id ∈ outputFpIds ++ inputFpIds, id.toNat < st.invocations.fingerprints.length := by
    intro id hid
    rcases mem_append.mp hid with hid | hid
    · exact houtputs.index_lt hid
    · exact hinputs.index_lt hid
  have hbelow : IndicesBelow (UInt32.ofNat st.invocations.fingerprints.length)
      (outputFpIds ++ inputFpIds) := by
    intro _ id hid
    rw [UInt32.lt_iff_toNat_lt, Parsing.toNat_ofNat hmirrors.coherent.fingerprints]
    exact hindex id hid
  refine ⟨_, ⟨Parsing.parseRecord_invocation order lstat (by omega) (by omega) (by omega) hbelow,
    ⟨hmirrors.parseData, hmirrors.coherent.setEntry hindex⟩, rfl, rfl, prefix_rfl,
    fun v hv => hv.setEntry ⟨houtputs, hinputs, rfl, rfl⟩⟩, trivial⟩

theorem emits_ranCommand (log : PersistentInvocationLog) (c : RanCommand)
    (hpaths : ∀ file ∈ c.outputFiles ++ c.inputFiles, Unpadded file.1) :
    Emits order lstat (fun _ => True) log (log.call (.ranCommand c))
      (LogView.apply lstat · (.ranCommand c)) fun _ => True := by
  have houtputs : Emits order lstat _ log _ _ _ :=
    emits_writePathsAndFingerprints .directoryAsDirectoryEntry c.outputFiles
      (fun file hfile => hpaths file (mem_append_left _ hfile)) log
  have hinputs : Emits order lstat _ (log.writeOutputPathsAndFingerprints c.outputFiles).1 _ _ _ :=
    (emits_writePathsAndFingerprints .ignoreDirectory c.inputFiles
      (fun file hfile => hpaths file (mem_append_right _ hfile)) _).frame
        (LoggedIds.lasting c.outputFiles (log.writeOutputPathsAndFingerprints c.outputFiles).2)
  exact (houtputs.trans (hinputs.imp (fun st h => ⟨trivial, h⟩) fun st h => h)).trans
    (emits_invocation _ c _ _)

theorem emits_removedDirectory (log : PersistentInvocationLog) (path : Path) :
    Emits order lstat (fun _ => True) log (log.call (.removedDirectory path))
      (LogView.apply lstat · (.removedDirectory path)) fun _ => True := by
  simp only [call, removedDirectory, LogView.apply]
  have hids : ∀ st, Mirrors log st → st.pathIds.lookup path = log.pathIds.lookup path :=
    fun st hmirrors => congrArg (fun data => data.pathIds.lookup path) hmirrors.parseData.symm
  cases hlookup : log.pathIds.lookup path with
  | none =>
    refine ⟨[], (append_nil _).symm, rfl, fun st hmirrors _ _ => ⟨st, ?_, hmirrors, trivial⟩⟩
    refine { Advances.nil hmirrors.coherent with shows := fun v hv => ?_ }
    rw [hv.known, hids st hmirrors, hlookup]
    exact hv
  | some id =>
    have hrecord : Emits order lstat _ log _ _ _ := emits_deletedDir log id path
    obtain ⟨rs, hwritten, hexisting, hstep⟩ := hrecord
    refine ⟨rs, hwritten, hexisting, fun st hmirrors _ hroom => ?_⟩
    have hknown : st.pathIds.lookup path = some id := (hids st hmirrors).trans hlookup
    obtain ⟨st', hadvances, hmirrors', -⟩ := hstep st hmirrors (hmirrors.coherent.path path id hknown) hroom
    refine ⟨st', { hadvances with shows := fun v hv => ?_ }, hmirrors', trivial⟩
    rw [hv.known, hknown]
    exact hadvances.shows v hv

theorem emits_cleanedCommand (log : PersistentInvocationLog) (hash : Hash) :
    Emits order lstat (fun _ => True) log (log.call (.cleanedCommand hash))
      (LogView.apply lstat · (.cleanedCommand hash)) fun _ => True := by
  refine .record rfl rfl fun st hmirrors _ _ => ?_
  exact ⟨_, ⟨Parsing.parseRecord_deletedInvocation order lstat hash,
    ⟨hmirrors.parseData, hmirrors.coherent.deleteEntry hash⟩, rfl, rfl, prefix_rfl,
    fun v hv => hv.deleteEntry hash⟩, trivial⟩

theorem emits_call (log : PersistentInvocationLog) (c : LogCall) (hpaths : ∀ path ∈ c.paths, Unpadded path) :
    Emits order lstat (fun _ => True) log (log.call c) (LogView.apply lstat · c) fun _ => True := by
  cases c with
  | createdDirectory path =>
    exact (emits_ensurePathIsWritten log (hpaths path (mem_singleton_self path))).trans
      (emits_writeDirectoryEntry _ _ path)
  | removedDirectory path => exact emits_removedDirectory log path
  | ranCommand c =>
    exact emits_ranCommand log c fun file hfile => hpaths file.1 (mem_map_of_mem hfile)
  | cleanedCommand hash => exact emits_cleanedCommand log hash

theorem emits_calls (calls : List LogCall) (hpaths : ∀ c ∈ calls, ∀ path ∈ c.paths, Unpadded path)
    (log : PersistentInvocationLog) :
    Emits order lstat (fun _ => True) log (log.calls calls) (LogView.applyAll lstat · calls) fun _ => True := by
  induction calls generalizing log with
  | nil => exact .refl
  | cons c calls ih =>
    exact (emits_call log c (hpaths c mem_cons_self)).trans
      (ih (fun c' hc' => hpaths c' (mem_cons_of_mem _ hc')) (log.call c))

end
end Shuriken
