import Shuriken.Lib.Except
import Shuriken.Manifest.Precompiled

/-!
# When the precompiled manifest is fresh

The modification time of the compiled manifest tells when it was written, and not when the manifest files were
read.
-/
namespace Shuriken
open Option List

section
variable {ρ α : Type} (fmt : ManifestFormat ρ α)

/-- The files that the parser reads when the files have some contents. -/
inductive Reads (manifestPath : Path) (contents : Path → Option Bytes) : List (Path × Bytes) → Prop
  | nil : Reads manifestPath contents []
  | snoc {read : List (Path × Bytes)} {path : Path} {text : Bytes} : Reads manifestPath contents read →
      fmt.parse manifestPath read = .read path → contents path = some text →
      Reads manifestPath contents (read ++ [(path, text)])

def Compiles (manifestPath : Path) (contents : Path → Option Bytes) (manifest : α) : Prop :=
  ∃ read raw, Reads fmt manifestPath contents read ∧ fmt.parse manifestPath read = .done (.ok raw) ∧
    fmt.compile raw = .ok manifest

variable {fmt} {manifestPath : Path} {contents contents' : Path → Option Bytes}

theorem Reads.congr {read : List (Path × Bytes)} (h : Reads fmt manifestPath contents read)
    (hcontents : ∀ path ∈ read.map Prod.fst, contents' path = contents path) :
    Reads fmt manifestPath contents' read := by
  induction h with
  | nil => exact .nil
  | @snoc read path text h hparse htext ih =>
    simp only [map_append, map_cons, map_nil, forall_mem_append, forall_mem_singleton] at hcontents
    exact .snoc (ih hcontents.1) hparse (hcontents.2.trans htext)

variable {manifest : α} {text : Bytes}

theorem Compiles.congr (h : Compiles fmt manifestPath contents manifest)
    (hcontents : ∀ path ∈ fmt.manifestFiles manifest, contents' path = contents path) :
    Compiles fmt manifestPath contents' manifest := by
  obtain ⟨read, raw, hread, hparse, hcompile⟩ := h
  rw [fmt.manifestFiles_eq hparse hcompile] at hcontents
  exact ⟨read, raw, hread.congr hcontents, hparse, hcompile⟩

theorem Reads.at {whole read rest : List (Path × Bytes)} {path : Path} (h : Reads fmt manifestPath contents whole)
    (hwhole : whole = read ++ (path, text) :: rest) :
    fmt.parse manifestPath read = .read path ∧ contents path = some text := by
  induction h generalizing rest with
  | nil => simp at hwhole
  | @snoc read₀ path₀ text₀ h hparse htext ih =>
    rcases eq_nil_or_concat' rest with rfl | ⟨rest, last, rfl⟩
    · obtain ⟨rfl, heq⟩ := append_inj' hwhole rfl
      obtain ⟨rfl, rfl⟩ := Prod.mk.inj (singleton_inj.mp heq)
      exact ⟨hparse, htext⟩
    · rw [← cons_append, ← append_assoc] at hwhole
      exact ih (append_inj' hwhole rfl).1

theorem Reads.isPrefix {read whole : List (Path × Bytes)} {result : Except String ρ}
    (h : Reads fmt manifestPath contents read) (hwhole : Reads fmt manifestPath contents whole)
    (hdone : fmt.parse manifestPath whole = .done result) : read <+: whole := by
  induction h with
  | nil => exact nil_prefix
  | @snoc read path text h hparse htext ih =>
    obtain ⟨rest, hrest⟩ := ih
    cases rest with
    | nil =>
      rw [append_nil] at hrest
      nomatch (hrest ▸ hparse).symm.trans hdone
    | cons next rest =>
      obtain ⟨hparse', htext'⟩ := hwhole.at hrest.symm
      obtain rfl := ParseStep.read.inj (hparse.symm.trans hparse')
      cases htext.symm.trans htext'
      exact ⟨rest, by rw [← hrest, append_assoc]; rfl⟩

theorem Compiles.unique {manifest' : α} (h : Compiles fmt manifestPath contents manifest)
    (h' : Compiles fmt manifestPath contents manifest') : manifest = manifest' := by
  obtain ⟨read, raw, hread, hparse, hcompile⟩ := h
  obtain ⟨read', raw', hread', hparse', hcompile'⟩ := h'
  obtain rfl : read = read' := (hread.isPrefix hread' hparse').eq_of_length_le
    (hread'.isPrefix hread hparse).length_le
  cases ParseStep.done.inj (hparse.symm.trans hparse')
  exact Except.ok.inj (hcompile.symm.trans hcompile')

variable (fmt) in
/-- What the file can hold while a manifest is written to it, by any number of calls. -/
inductive Written (manifest : α) : Bytes → Prop
  | empty : Written manifest []
  | version : Written manifest versionBytes
  | zeros : Written manifest (replicate versionBytes.length 0 ++ fmt.encode manifest)
  | all : Written manifest (versionBytes ++ fmt.encode manifest)

section
variable (h : Written fmt manifest text)
include h

theorem Written.load {manifest' : α} (hload : loadPrecompiled fmt text = some manifest') : manifest' = manifest := by
  cases h with
  | empty => nomatch hload
  | version => nomatch fmt.load_nil.symm.trans hload
  | zeros =>
    rw [loadPrecompiled, if_neg (by simp), take_left' length_replicate, if_pos (by decide)] at hload
    nomatch hload
  | all =>
    rw [loadPrecompiled, if_neg (by simp), take_left, if_neg (by simp), drop_left, fmt.load_encode] at hload
    exact (some.inj hload).symm

theorem Written.writeVersion : Written fmt manifest (writeAt text 0 versionBytes) := by
  have hwrite : ∀ first : Bytes, first.length = versionBytes.length →
      writeAt (first ++ fmt.encode manifest) 0 versionBytes = versionBytes ++ fmt.encode manifest := by
    intro first hfirst
    simp [writeAt, ← hfirst]
  cases h with
  | empty | version => exact .version
  | zeros =>
    rw [hwrite _ length_replicate]
    exact .all
  | all =>
    rw [hwrite _ rfl]
    exact .all

theorem Written.writeBuffer : Written fmt manifest (writeAt text versionBytes.length (fmt.encode manifest)) := by
  have hwrite : ∀ first rest : Bytes, first.length = versionBytes.length → rest.length ≤ (fmt.encode manifest).length →
      writeAt (first ++ rest) versionBytes.length (fmt.encode manifest) = first ++ fmt.encode manifest := by
    intro first rest hfirst hrest
    simp [writeAt, ← hfirst, hrest]
  cases h with
  | empty =>
    rw [show writeAt [] versionBytes.length (fmt.encode manifest) =
      replicate versionBytes.length 0 ++ fmt.encode manifest by simp [writeAt]]
    exact .zeros
  | version =>
    have hversion := hwrite versionBytes [] rfl (Nat.zero_le _)
    rw [append_nil] at hversion
    rw [hversion]
    exact .all
  | zeros =>
    rw [hwrite _ _ length_replicate le_rfl]
    exact .zeros
  | all =>
    rw [hwrite _ _ rfl le_rfl]
    exact .all

end

end

section
variable {ρ α : Type}

/-- The files that a call has read and not yet written to the compiled manifest. -/
def CallPhase.unwritten (fmt : ManifestFormat ρ α) : CallPhase α → List Path
  | .parsing read => read.map Prod.fst
  | .opening manifest | .writingVersion manifest | .writingBuffer manifest => fmt.manifestFiles manifest
  | _ => []

def CallPhase.writes : CallPhase α → Option α
  | .writingVersion manifest | .writingBuffer manifest => some manifest
  | _ => none

def ManifestWorld.Older (w : ManifestWorld α) (mtime : Int) (path : Path) : Prop :=
  ∃ file, w.files path = some file ∧ file.mtime < mtime

variable (fmt : ManifestFormat ρ α) (manifestPath : Path)

/-- What a call knows. While the manifest files are checked, `Old` holds for those that were older
than the compiled file when it was read. -/
def CallPhase.Knows (w : ManifestWorld α) (moments : List (Path → Option Bytes)) : CallPhase α → Prop
  | .statCompiled => True
  | .readCompiled compiledMtime =>
    compiledMtime ≤ w.clock ∧ ∃ file, w.compiled = some file ∧ compiledMtime ≤ file.mtime
  | .statFiles compiledMtime manifest files mtime =>
    compiledMtime ≤ w.clock ∧ ∃ checked contents, ∃ Old : Path → Prop,
      fmt.manifestFiles manifest = checked ++ files ∧ contents ∈ moments ∧
      ((∀ path ∈ fmt.manifestFiles manifest, Old path) → Compiles fmt manifestPath contents manifest) ∧
      (∀ path, w.Older compiledMtime path → Old path) ∧
      (checked ≠ [] → ∃ newest, mtime = some newest ∧ (newest < compiledMtime → ∀ path ∈ checked, Old path)) ∧
      (checked = [] → mtime = none)
  | .parsing read => Reads fmt manifestPath w.contents read
  | .opening manifest | .writingVersion manifest | .writingBuffer manifest =>
    Compiles fmt manifestPath w.contents manifest
  | .returned (.ok manifest) => ∃ contents ∈ moments, Compiles fmt manifestPath contents manifest
  | .returned (.error _) => True

structure ManifestWorld.Sound (w : ManifestWorld α) : Prop where
  compiledMtime : ∀ {file}, w.compiled = some file → file.mtime ≤ w.clock
  /-- A compiled manifest that is newer than its files is what they compile to. -/
  compiled : ∀ {file manifest}, w.compiled = some file → loadPrecompiled fmt file.contents = some manifest →
    (∀ path ∈ fmt.manifestFiles manifest, w.Older file.mtime path) →
    Compiles fmt manifestPath w.contents manifest
  writes : ∀ call ∈ w.calls, ∀ {manifest}, call.phase.writes = some manifest →
    ∃ file, w.compiled = some file ∧ Written fmt manifest file.contents
  path : ∀ call ∈ w.calls, call.manifestPath = manifestPath
  now : ∀ call ∈ w.calls, (∀ result, call.phase ≠ .returned result) → w.contents ∈ call.moments
  knows : ∀ call ∈ w.calls, call.phase.Knows fmt manifestPath w call.moments

variable {fmt manifestPath} {w w' : ManifestWorld α}

variable {phase : CallPhase α} {moments : List (Path → Option Bytes)} {manifest : α} {path : Path} {compiledMtime : Int}
    {call : Call α} {compiled : Option TimedFile}

/-- What a call knows stays true while the files that it has read stay as they are. -/
theorem CallPhase.Knows.frame {moments' : List (Path → Option Bytes)} (h : phase.Knows fmt manifestPath w moments)
    (hclock : w.clock ≤ w'.clock)
    (hcompiled : ∀ {file}, w.compiled = some file → ∃ file', w'.compiled = some file' ∧ file.mtime ≤ file'.mtime)
    (holder : ∀ {mtime path}, mtime ≤ w.clock → w'.Older mtime path → w.Older mtime path)
    (hcontents : ∀ path ∈ phase.unwritten fmt, w'.contents path = w.contents path) (hmoments : moments ⊆ moments') :
    phase.Knows fmt manifestPath w' moments' := by
  cases phase with
  | statCompiled => trivial
  | readCompiled compiledMtime =>
    obtain ⟨hle, file, hfile, hmtime⟩ := h
    obtain ⟨file', hfile', hmtime'⟩ := hcompiled hfile
    exact ⟨hle.trans hclock, file', hfile', hmtime.trans hmtime'⟩
  | statFiles compiledMtime manifest files mtime =>
    obtain ⟨hle, checked, contents, Old, hfiles, hmem, hcompiles, hold, hchecked, hnone⟩ := h
    exact ⟨hle.trans hclock, checked, contents, Old, hfiles, hmoments hmem, hcompiles,
      fun path hpath => hold path (holder hle hpath), hchecked, hnone⟩
  | parsing read => exact Reads.congr h hcontents
  | opening | writingVersion | writingBuffer => exact Compiles.congr h hcontents
  | returned result =>
    cases result with
    | error error => trivial
    | ok manifest =>
      obtain ⟨contents, hmem, hcompiles⟩ := h
      exact ⟨contents, hmoments hmem, hcompiles⟩

theorem CallPhase.Knows.compiles (h : phase.Knows fmt manifestPath w moments) (hwrites : phase.writes = some manifest) :
    Compiles fmt manifestPath w.contents manifest := by
  cases phase with
  | writingVersion | writingBuffer => exact some.inj hwrites ▸ h
  | statCompiled | readCompiled | statFiles | parsing | opening | returned => nomatch hwrites

/-- An edit of a file that no call has read and not yet written. -/
theorem ManifestWorld.Sound.afterEdit (h : w.Sound fmt manifestPath) {file : Option TimedFile}
    (hfile : ∀ {f}, file = some f → w.clock ≤ f.mtime) (hallowed : ∀ call ∈ w.calls, path ∉ call.phase.unwritten fmt) :
    (w.setFile path file).Sound fmt manifestPath := by
  have hcontents : ∀ path', path' ≠ path → (w.setFile path file).contents path' = w.contents path' := by
    intro path' hne
    simp [ManifestWorld.setFile, ManifestWorld.contents, Function.update_of_ne hne]
  have holder : ∀ {mtime path'}, mtime ≤ w.clock → (w.setFile path file).Older mtime path' →
      path' ≠ path ∧ w.Older mtime path' := by
    rintro mtime path' hle ⟨f, hf, hlt⟩
    by_cases hne : path' = path
    · subst hne
      simp only [ManifestWorld.setFile, Function.update_self] at hf
      exact absurd (hfile hf) (by omega)
    · simp only [ManifestWorld.setFile, Function.update_of_ne hne] at hf
      exact ⟨hne, f, hf, hlt⟩
  have hcalls : ∀ call ∈ (w.setFile path file).calls, ∃ call₀ ∈ w.calls, call.phase = call₀.phase ∧
        call.manifestPath = call₀.manifestPath ∧ call₀.moments ⊆ call.moments ∧
        ((∀ result, call.phase ≠ .returned result) → (w.setFile path file).contents ∈ call.moments) := by
    intro call hcall
    obtain ⟨call₀, hcall₀, rfl⟩ := mem_map.mp hcall
    refine ⟨call₀, hcall₀, ?_⟩
    rw [Call.see]
    split
    · next result hphase => exact ⟨rfl, rfl, fun _ h => h, fun h => absurd hphase (h result)⟩
    · exact ⟨rfl, rfl, subset_append_left _ _, fun _ => mem_append_right _ (mem_singleton_self _)⟩
  refine ⟨h.compiledMtime, fun {f manifest} hf hload hold => ?_, fun call hcall manifest hwrites => ?_,
    fun call hcall => ?_, fun call hcall => ?_, fun call hcall => ?_⟩
  · have hle := h.compiledMtime hf
    refine (h.compiled hf hload fun p hp => (holder hle (hold p hp)).2).congr fun p hp => ?_
    exact hcontents p (holder hle (hold p hp)).1
  · obtain ⟨call₀, hcall₀, hphase, -⟩ := hcalls call hcall
    exact h.writes call₀ hcall₀ (hphase ▸ hwrites)
  · obtain ⟨call₀, hcall₀, -, hpath, -⟩ := hcalls call hcall
    exact hpath.trans (h.path call₀ hcall₀)
  · obtain ⟨call₀, -, -, -, -, hnow⟩ := hcalls call hcall
    exact hnow
  · obtain ⟨call₀, hcall₀, hphase, -, hmoments, -⟩ := hcalls call hcall
    rw [hphase]
    refine (h.knows call₀ hcall₀).frame le_rfl (fun hf => ⟨_, hf, le_rfl⟩) (fun hle hp => (holder hle hp).2)
      (fun p hp => hcontents p ?_) hmoments
    rintro rfl
    exact hallowed call₀ hcall₀ hp

variable (fmt manifestPath) in
/-- What holds after a step of a call: it has left the compiled file alone, or it has written what
the files compile to. -/
structure ManifestWorld.Stepped (w : ManifestWorld α) (moments : List (Path → Option Bytes))
    (compiled : Option TimedFile) (phase : CallPhase α) : Prop where
  file : compiled = w.compiled ∨ ∃ text manifest, compiled = some ⟨text, w.clock⟩ ∧
    Written fmt manifest text ∧ Compiles fmt manifestPath w.contents manifest
  knows : phase.Knows fmt manifestPath { w with compiled } moments
  writes : ∀ {manifest}, phase.writes = some manifest →
    ∃ file, compiled = some file ∧ Written fmt manifest file.contents

theorem ManifestWorld.stepped_parsing (moments : List (Path → Option Bytes)) :
    w.Stepped fmt manifestPath moments w.compiled (.parsing []) :=
  ⟨.inl rfl, Reads.nil, nofun⟩

theorem CallPhase.Knows.statFile {rest : List Path} {mtime : Option Int}
    (h : (CallPhase.statFiles compiledMtime manifest (path :: rest) mtime).Knows fmt manifestPath w moments)
    {file : TimedFile} (hfile : w.files path = some file) :
    (CallPhase.statFiles compiledMtime manifest rest (some (maxMtime mtime file.mtime))).Knows
      fmt manifestPath w moments := by
  obtain ⟨hle, checked, contents, Old, hfiles, hmem, hcompiles, hold, hchecked, hnone⟩ := h
  refine ⟨hle, checked ++ [path], contents, Old, by simp [hfiles], hmem, hcompiles, hold,
    fun _ => ⟨_, rfl, fun hlt => ?_⟩, fun hnil => absurd hnil (by simp)⟩
  have hmax : file.mtime < compiledMtime ∧ ∀ newest, mtime = some newest → newest < compiledMtime := by
    cases mtime with
    | none => exact ⟨hlt, nofun⟩
    | some newest =>
      obtain ⟨hnewest, hfile⟩ := max_lt_iff.mp hlt
      exact ⟨hfile, fun _ heq => some.inj heq ▸ hnewest⟩
  refine forall_mem_append.mpr ⟨?_, ?_⟩
  · by_cases hnil : checked = []
    · exact hnil ▸ nofun
    · obtain ⟨newest, heq, hall⟩ := hchecked hnil
      exact hall (hmax.2 newest heq)
  · exact forall_mem_singleton.mpr (hold path ⟨file, hfile, hmax.1⟩)

theorem CallPhase.Knows.upToDate {newest : Int}
    (h : (CallPhase.statFiles compiledMtime manifest [] (some newest)).Knows fmt manifestPath w moments)
    (hnewest : newest < compiledMtime) : (CallPhase.returned (.ok manifest)).Knows fmt manifestPath w moments := by
  obtain ⟨-, checked, contents, Old, hfiles, hmem, hcompiles, -, hchecked, hnone⟩ := h
  obtain ⟨newest', heq, hall⟩ := hchecked fun hnil => nomatch hnone hnil
  cases heq
  rw [hfiles, append_nil] at hcompiles
  exact ⟨contents, hmem, hcompiles (hall hnewest)⟩

theorem ManifestWorld.Sound.step_spec (h : w.Sound fmt manifestPath) (hcall : call ∈ w.calls) :
    let stepped := Call.step fmt w.clock w.files w.compiled manifestPath call.phase
    w.Stepped fmt manifestPath call.moments stepped.1 stepped.2 := by
  dsimp only
  have hknows := h.knows call hcall
  have hnow := h.now call hcall
  have hwrites : ∀ {manifest}, call.phase.writes = some manifest → _ := h.writes call hcall
  generalize call.phase = current at hknows hnow hwrites ⊢
  cases current with
  | statCompiled =>
    rw [Call.step.eq_def]
    dsimp only
    split
    · exact w.stepped_parsing call.moments
    · next file hfile => exact ⟨.inl rfl, ⟨h.compiledMtime hfile, file, hfile, le_rfl⟩, nofun⟩
  | readCompiled compiledMtime =>
    obtain ⟨hle, file, hfile, hmtime⟩ := hknows
    rw [Call.step]
    split
    · exact w.stepped_parsing call.moments
    · next manifest hload =>
      rw [hfile] at hload
      have hcompiles : (∀ path ∈ fmt.manifestFiles manifest, w.Older compiledMtime path) →
          Compiles fmt manifestPath w.contents manifest := by
        intro hold
        refine h.compiled hfile hload fun path hpath => ?_
        obtain ⟨f, hf, hlt⟩ := hold path hpath
        exact ⟨f, hf, hlt.trans_le hmtime⟩
      exact ⟨.inl rfl, ⟨hle, [], w.contents, w.Older compiledMtime, rfl, hnow nofun, hcompiles,
        fun _ hold => hold, fun hne => absurd rfl hne, fun _ => rfl⟩, nofun⟩
  | statFiles compiledMtime manifest files mtime =>
    cases files with
    | nil =>
      rw [Call.step.eq_def]
      dsimp only
      split
      · exact w.stepped_parsing call.moments
      · split
        · exact w.stepped_parsing call.moments
        · next hnewer => exact ⟨.inl rfl, hknows.upToDate (not_le.mp hnewer), nofun⟩
    | cons path rest =>
      rw [Call.step]
      split
      · exact w.stepped_parsing call.moments
      · next file hfile => exact ⟨.inl rfl, hknows.statFile hfile, nofun⟩
  | parsing read =>
    rw [Call.step]
    split
    · next path hparse =>
      split
      · exact ⟨.inl rfl, trivial, nofun⟩
      · next file hfile =>
        have hcontents : w.contents path = some file.contents := by rw [contents, hfile]; rfl
        exact ⟨.inl rfl, Reads.snoc hknows hparse hcontents, nofun⟩
    · exact ⟨.inl rfl, trivial, nofun⟩
    · next raw hparse =>
      split
      · exact ⟨.inl rfl, trivial, nofun⟩
      · next manifest hcompile => exact ⟨.inl rfl, ⟨read, raw, hknows, hparse, hcompile⟩, nofun⟩
  | opening manifest => exact ⟨.inr ⟨[], manifest, rfl, .empty, hknows⟩, hknows, fun hm => ⟨_, rfl, .empty⟩⟩
  | writingVersion manifest =>
    obtain ⟨file, hfile, hwritten⟩ := hwrites rfl
    rw [hfile]
    exact ⟨.inr ⟨_, manifest, rfl, hwritten.writeVersion, hknows⟩, hknows, fun hm =>
      ⟨_, rfl, some.inj hm ▸ hwritten.writeVersion⟩⟩
  | writingBuffer manifest =>
    obtain ⟨file, hfile, hwritten⟩ := hwrites rfl
    rw [hfile, Call.step, fmt.load_encode]
    exact ⟨.inr ⟨_, manifest, rfl, hwritten.writeBuffer, hknows⟩, ⟨_, hnow nofun, hknows⟩, nofun⟩
  | returned result => exact ⟨.inl rfl, hknows, nofun⟩

/-- A step of one of the calls. -/
theorem ManifestWorld.Sound.afterStep (h : w.Sound fmt manifestPath) {i : Nat} (hcall : w.calls[i]? = some call)
    (hstep : Call.step fmt w.clock w.files w.compiled manifestPath call.phase = (compiled, phase)) :
    ManifestWorld.Sound fmt manifestPath { w with compiled, calls := w.calls.set i { call with phase } } := by
  have hmem := mem_of_getElem? hcall
  have hstepped : w.Stepped fmt manifestPath call.moments compiled phase := by
    have hspec := h.step_spec hmem
    rwa [hstep] at hspec
  have hmtime : ∀ {file}, compiled = some file → file.mtime ≤ w.clock := by
    intro file hfile
    rcases hstepped.file with heq | ⟨text, manifest, heq, -⟩
    · exact h.compiledMtime (heq ▸ hfile)
    · rw [hfile] at heq
      exact (congrArg TimedFile.mtime (some.inj heq)).le
  have hcalls : ∀ call' ∈ w.calls.set i { call with phase }, call' ∈ w.calls ∨ call' = { call with phase } :=
    fun call' hcall' => mem_or_eq_of_mem_set hcall'
  have hgrows : ∀ {file}, w.compiled = some file → ∃ file', compiled = some file' ∧ file.mtime ≤ file'.mtime := by
    intro file hfile
    rcases hstepped.file with heq | ⟨text, manifest, heq, -⟩
    · exact ⟨file, heq ▸ hfile, le_rfl⟩
    · exact ⟨_, heq, h.compiledMtime hfile⟩
  refine ⟨hmtime, fun {file manifest} hfile hload hold => ?_, fun call' hcall' manifest hwrites => ?_,
    fun call' hcall' => ?_, fun call' hcall' => ?_, fun call' hcall' => ?_⟩
  · rcases hstepped.file with heq | ⟨text, manifest', heq, hwritten, hcompiles⟩
    · exact h.compiled (heq ▸ hfile) hload hold
    · cases heq.symm.trans hfile
      exact hwritten.load hload ▸ hcompiles
  · rcases hcalls call' hcall' with hcall' | rfl
    · obtain ⟨file, hfile, hwritten⟩ := h.writes call' hcall' hwrites
      rcases hstepped.file with heq | ⟨text, manifest', heq, hwritten', hcompiles⟩
      · exact ⟨file, heq ▸ hfile, hwritten⟩
      · exact ⟨_, heq, hcompiles.unique ((h.knows call' hcall').compiles hwrites) ▸ hwritten'⟩
    · exact hstepped.writes hwrites
  · rcases hcalls call' hcall' with hcall' | rfl
    · exact h.path call' hcall'
    · exact h.path call hmem
  · rcases hcalls call' hcall' with hcall' | rfl
    · exact h.now call' hcall'
    · intro hphase
      refine h.now call hmem fun result hreturned => ?_
      rw [hreturned] at hstep
      exact hphase result (Prod.mk.inj hstep).2.symm
  · rcases hcalls call' hcall' with hcall' | rfl
    · exact (h.knows call' hcall').frame le_rfl hgrows (fun _ hold => hold) (fun _ _ => rfl) fun _ h => h
    · exact hstepped.knows.frame le_rfl (fun hfile => ⟨_, hfile, le_rfl⟩) (fun _ hold => hold)
        (fun _ _ => rfl) fun _ h => h

variable (fmt manifestPath) in
/-- No file is edited that a call has read and not yet written to the compiled manifest, and all
calls are for the same manifest. -/
def ManifestEvent.Allowed (w : ManifestWorld α) : ManifestEvent → Prop
  | .edit path _ | .remove path => ∀ call ∈ w.calls, path ∉ call.phase.unwritten fmt
  | .begin path => path = manifestPath
  | .tick _ | .step _ | .kill _ => True

instance (w : ManifestWorld α) (event : ManifestEvent) : Decidable (event.Allowed fmt manifestPath w) :=
  match event with
  | .edit _ _ | .remove _ => inferInstanceAs (Decidable (∀ _ ∈ _, _))
  | .begin _ => inferInstanceAs (Decidable (_ = _))
  | .tick _ | .step _ | .kill _ => isTrue trivial

variable (fmt manifestPath) in
def ManifestWorld.Follows (w w' : ManifestWorld α) : Prop :=
  ∃ event : ManifestEvent, event.Allowed fmt manifestPath w ∧ w.next fmt event = some w'

theorem ManifestWorld.Sound.next (h : w.Sound fmt manifestPath) (hfollows : w.Follows fmt manifestPath w') :
    w'.Sound fmt manifestPath := by
  obtain ⟨event, hallowed, hnext⟩ := hfollows
  cases event with
  | tick clock =>
    rw [ManifestWorld.next] at hnext
    split at hnext
    · next hclock =>
      cases hnext
      refine ⟨fun hfile => (h.compiledMtime hfile).trans hclock, h.compiled, h.writes, h.path, h.now,
        fun call hcall => ?_⟩
      exact (h.knows call hcall).frame hclock (fun hfile => ⟨_, hfile, le_rfl⟩) (fun _ hold => hold)
        (fun _ _ => rfl) fun _ h => h
    · nomatch hnext
  | edit path contents =>
    cases hnext
    exact h.afterEdit (fun hf => some.inj hf ▸ le_rfl) hallowed
  | remove path =>
    cases hnext
    exact h.afterEdit nofun hallowed
  | begin path =>
    cases hnext
    have hcalls : ∀ {P : Call α → Prop}, (∀ call ∈ w.calls, P call) →
        P { manifestPath := path, moments := [w.contents] } →
        ∀ call ∈ w.calls ++ [{ manifestPath := path, moments := [w.contents] }], P call :=
      fun hold hnew => forall_mem_append.mpr ⟨hold, forall_mem_singleton.mpr hnew⟩
    refine ⟨h.compiledMtime, h.compiled, hcalls h.writes nofun, hcalls h.path hallowed,
      hcalls h.now fun _ => mem_singleton_self _, hcalls (fun call hcall => ?_) trivial⟩
    exact (h.knows call hcall).frame le_rfl (fun hfile => ⟨_, hfile, le_rfl⟩) (fun _ hold => hold)
      (fun _ _ => rfl) fun _ h => h
  | step i =>
    obtain ⟨call, hcall, rfl⟩ := map_eq_some_iff.mp hnext
    cases hstep : Call.step fmt w.clock w.files w.compiled call.manifestPath call.phase with
    | mk compiled phase =>
      rw [h.path call (mem_of_getElem? hcall)] at hstep
      exact h.afterStep hcall hstep
  | kill i =>
    cases hnext
    have hcalls : ∀ {call}, call ∈ w.calls.eraseIdx i → call ∈ w.calls := mem_of_mem_eraseIdx
    refine ⟨h.compiledMtime, h.compiled, fun call hcall => h.writes call (hcalls hcall),
      fun call hcall => h.path call (hcalls hcall), fun call hcall => h.now call (hcalls hcall),
      fun call hcall => ?_⟩
    exact (h.knows call (hcalls hcall)).frame le_rfl (fun hfile => ⟨_, hfile, le_rfl⟩)
      (fun _ hold => hold) (fun _ _ => rfl) fun _ h => h

/-- In every run in which no file is edited between the time at which a call has read it and the
time at which the call has written the compiled manifest, what a call returns is what the files
compile to at one of the moments of this call. -/
theorem precompiled_manifest_fresh {w₀ : ManifestWorld α} (hcompiled : w₀.compiled = none)
    (hcalls : w₀.calls = []) (hrun : Relation.ReflTransGen (ManifestWorld.Follows fmt manifestPath) w₀ w)
    {call : Call α} (hcall : call ∈ w.calls) {manifest : α} (hreturned : call.phase = .returned (.ok manifest)) :
    ∃ contents ∈ call.moments, Compiles fmt manifestPath contents manifest := by
  have hstart : w₀.Sound fmt manifestPath := by
    have hnone : ∀ {call}, call ∉ w₀.calls := fun h => not_mem_nil (hcalls ▸ h)
    have hfile : ∀ {file}, w₀.compiled ≠ some file := fun h => nomatch hcompiled.symm.trans h
    exact ⟨fun h => absurd h hfile, fun h => absurd h hfile, fun _ h => absurd h hnone, fun _ h => absurd h hnone,
      fun _ h => absurd h hnone, fun _ h => absurd h hnone⟩
  have hsound : w.Sound fmt manifestPath := by
    clear hcall
    induction hrun with
    | refl => exact hstart
    | tail _ hfollows ih => exact ih.next hfollows
  have hknows := hsound.knows call hcall
  rw [hreturned] at hknows
  exact hknows

end

def singleFile : ManifestFormat Bytes Bytes where
  parse _ read :=
    match read with
    | [] => .read [109]
    | (path, contents) :: rest =>
      if path = [109] ∧ rest = [] then .done (.ok contents) else .done (.error "unexpected file")
  compile := .ok
  manifestFiles _ := [[109]]
  encode contents := 1 :: contents
  load buffer :=
    match buffer with
    | 1 :: contents => some contents
    | _ => none
  load_encode _ := rfl
  load_nil := rfl
  manifestFiles_eq {path read raw manifest} hparse _ := by
    split at hparse
    · nomatch hparse
    · split at hparse
      · next hread => simp [hread.1, hread.2]
      · nomatch hparse

def singleFileWorld : ManifestWorld Bytes where
  clock := 1
  files path := if path = [109] then some ⟨[1], 1⟩ else none

def ManifestWorld.run {ρ α : Type} (fmt : ManifestFormat ρ α) (w : ManifestWorld α)
    (events : List ManifestEvent) : Option (ManifestWorld α) :=
  events.foldlM (fun w event => w.next fmt event) w

def ManifestWorld.allowedRun {ρ α : Type} (fmt : ManifestFormat ρ α) (manifestPath : Path)
    (w : ManifestWorld α) (events : List ManifestEvent) : Option (ManifestWorld α) :=
  events.foldlM (fun w event => if event.Allowed fmt manifestPath w then w.next fmt event else none) w

variable {manifestPath : Path}

theorem singleFile_compiles {contents : Path → Option Bytes} {text : Bytes} (h : contents [109] = some text) :
    Compiles singleFile manifestPath contents text := by
  have hreads : Reads singleFile manifestPath contents ([] ++ [([109], text)]) := .snoc .nil rfl h
  exact ⟨[([109], text)], text, hreads, rfl, rfl⟩

def Call.hasReturned (call : Call Bytes) (manifest : Bytes) : Bool :=
  match call.phase with
  | .returned (.ok result) => result == manifest
  | _ => false

theorem Call.phase_of_hasReturned {call : Call Bytes} {manifest : Bytes} (h : call.hasReturned manifest = true) :
    call.phase = .returned (.ok manifest) := by
  rw [hasReturned] at h
  split at h
  · next hphase => rw [hphase, eq_of_beq h]
  · cases h

def usingEvents : List ManifestEvent :=
  [.begin [109], .edit [109] [5], .step 0, .step 0, .step 0, .tick 2, .step 0, .step 0, .step 0,
    .begin [109], .step 1, .step 1, .step 1, .step 1]

/-- A call reads the file, waits, and writes the compiled manifest. The next call uses it. -/
theorem precompiled_manifest_fresh_of_used :
    ∃ w call, singleFileWorld.allowedRun singleFile [109] usingEvents = some w ∧
      w.calls[1]? = some call ∧ call.phase = .returned (.ok [5]) ∧
      ∃ contents ∈ call.moments, Compiles singleFile [109] contents [5] := by
  have h : ∃ w, singleFileWorld.allowedRun singleFile [109] usingEvents = some w ∧
      ∃ call, w.calls[1]? = some call ∧ call.hasReturned [5] = true := by decide +kernel
  obtain ⟨w, hrun, call, hcall, h⟩ := h
  have hphase := Call.phase_of_hasReturned h
  refine ⟨w, call, hrun, hcall, hphase, precompiled_manifest_fresh rfl rfl
    (reaches_of_foldlM (fun _ event _ _ hround => ?_) hrun) (mem_of_getElem? hcall) hphase⟩
  split at hround
  · next hallowed => exact ⟨event, hallowed, hround⟩
  · cases hround

def editingEvents : List ManifestEvent :=
  [.begin [109], .step 0, .step 0, .step 0, .tick 2, .edit [109] [2], .tick 3, .step 0, .step 0,
    .step 0, .begin [109], .step 1, .step 1, .step 1, .step 1]

/-- The file is edited while a call is between reading it and writing the compiled manifest. The
next call takes the compiled manifest for fresh, and returns what the file held before. -/
theorem precompiled_manifest_stale : ∃ w call, singleFileWorld.run singleFile editingEvents = some w ∧
      w.calls[1]? = some call ∧ call.phase = .returned (.ok [1]) ∧
      ¬ ∃ contents ∈ call.moments, Compiles singleFile [109] contents [1] := by
  have h : ∃ w, singleFileWorld.run singleFile editingEvents = some w ∧ ∃ call, w.calls[1]? = some call ∧
      (∀ contents ∈ call.moments, contents [109] = some [2]) ∧ call.hasReturned [1] = true := by
    decide +kernel
  obtain ⟨w, hrun, call, hcall, hmoments, h⟩ := h
  have hphase := Call.phase_of_hasReturned h
  refine ⟨w, call, hrun, hcall, hphase, ?_⟩
  rintro ⟨contents, hmem, hcompiles⟩
  exact absurd (hcompiles.unique (singleFile_compiles (hmoments contents hmem))) (by decide)

end Shuriken
