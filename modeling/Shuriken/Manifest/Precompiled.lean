import Shuriken.Fs.FileSystem

/-!
# The precompiled manifest

`parseAndCompile` keeps the compiled manifest in a file, and uses it again as long as its modification time is
later than those of all manifest files.
-/
namespace Shuriken

/-- The parser reads one file after the other, as it comes across include statements. -/
inductive ParseStep (ρ : Type) where
  | read (path : Path)
  | done (result : Except String ρ)

/-- A parser, what is made of its result, and how that is stored. -/
structure ManifestFormat (ρ α : Type) where
  /-- What the parser does when it has read some files, given the path of the manifest. -/
  parse : Path → List (Path × Bytes) → ParseStep ρ
  compile : ρ → Except String α
  manifestFiles : α → List Path
  encode : α → Bytes
  load : Bytes → Option α
  load_encode : ∀ manifest, load (encode manifest) = some manifest
  load_nil : load [] = none
  /-- `manifest_files` has each file that is loaded. -/
  manifestFiles_eq : ∀ {path read raw manifest}, parse path read = .done (.ok raw) →
    compile raw = .ok manifest → manifestFiles manifest = read.map Prod.fst

def versionBytes : Bytes := [3, 0, 0, 0, 0, 0, 0, 0]

structure TimedFile where
  contents : Bytes
  mtime : Int

section
variable {ρ α : Type}

/-- Where a call of `parseAndCompile` is. -/
inductive CallPhase (α : Type) where
  | statCompiled
  | readCompiled (compiledMtime : Int)
  | statFiles (compiledMtime : Int) (manifest : α) (files : List Path) (mtime : Option Int)
  | parsing (read : List (Path × Bytes))
  | opening (manifest : α)
  | writingVersion (manifest : α)
  | writingBuffer (manifest : α)
  | returned (result : Except String α)

/-- `moments` are the contents of all files at the moments of the call. -/
structure Call (α : Type) where
  manifestPath : Path
  phase : CallPhase α := .statCompiled
  moments : List (Path → Option Bytes)

/-- A write to a file at a position, of which the part before may be missing. -/
def writeAt (contents : Bytes) (pos : Nat) (data : Bytes) : Bytes :=
  contents.take pos ++ List.replicate (pos - contents.length) 0 ++ data ++ contents.drop (pos + data.length)

/-- The checks of `loadPrecompiledManifest` that do not look at the manifest files. -/
def loadPrecompiled (fmt : ManifestFormat ρ α) (buffer : Bytes) : Option α :=
  if buffer.length < versionBytes.length then none
  else if buffer.take versionBytes.length ≠ versionBytes then none
  else fmt.load (buffer.drop versionBytes.length)

def maxMtime (ans : Option Int) (mtime : Int) : Int :=
  match ans with
  | none => mtime
  | some ans => max ans mtime

def Call.step (fmt : ManifestFormat ρ α) (clock : Int) (files : Path → Option TimedFile)
    (compiled : Option TimedFile) (manifestPath : Path) :
    CallPhase α → Option TimedFile × CallPhase α
  | .statCompiled =>
    match compiled with
    | none => (compiled, .parsing [])
    | some file => (compiled, .readCompiled file.mtime)
  | .readCompiled compiledMtime =>
    match compiled.bind fun file => loadPrecompiled fmt file.contents with
    | none => (compiled, .parsing [])
    | some manifest => (compiled, .statFiles compiledMtime manifest (fmt.manifestFiles manifest) none)
  | .statFiles compiledMtime manifest [] mtime =>
    match mtime with
    | none => (compiled, .parsing [])
    | some mtime =>
      if mtime ≥ compiledMtime then (compiled, .parsing []) else (compiled, .returned (.ok manifest))
  | .statFiles compiledMtime manifest (path :: rest) mtime =>
    match files path with
    | none => (compiled, .parsing [])
    | some file => (compiled, .statFiles compiledMtime manifest rest (some (maxMtime mtime file.mtime)))
  | .parsing read =>
    match fmt.parse manifestPath read with
    | .read path =>
      match files path with
      | none =>
        (compiled, .returned (.error ("failed to parse manifest: loading '" ++ displayPath path ++
          "': No such file or directory")))
      | some file => (compiled, .parsing (read ++ [(path, file.contents)]))
    | .done (.error error) => (compiled, .returned (.error ("failed to parse manifest: " ++ error)))
    | .done (.ok raw) =>
      match fmt.compile raw with
      | .error error => (compiled, .returned (.error error))
      | .ok manifest => (compiled, .opening manifest)
  | .opening manifest => (some ⟨[], clock⟩, .writingVersion manifest)
  | .writingVersion manifest =>
    (some ⟨writeAt (compiled.elim [] (·.contents)) 0 versionBytes, clock⟩, .writingBuffer manifest)
  | .writingBuffer manifest =>
    (some ⟨writeAt (compiled.elim [] (·.contents)) versionBytes.length (fmt.encode manifest), clock⟩,
      .returned (match fmt.load (fmt.encode manifest) with
        | none => .error "Manifest file did not pass Flatbuffer validation"
        | some manifest => .ok manifest))
  | .returned result => (compiled, .returned result)

def Call.see (contents : Path → Option Bytes) (call : Call α) : Call α :=
  match call.phase with
  | .returned _ => call
  | _ => { call with moments := call.moments ++ [contents] }

structure ManifestWorld (α : Type) where
  clock : Int
  files : Path → Option TimedFile
  compiled : Option TimedFile := none
  calls : List (Call α) := []

inductive ManifestEvent where
  | tick (clock : Int)
  | edit (path : Path) (contents : Bytes)
  | remove (path : Path)
  | begin (manifestPath : Path)
  | step (i : Nat)
  /-- The process ends before the call returns. -/
  | kill (i : Nat)

namespace ManifestWorld

def contents (w : ManifestWorld α) (path : Path) : Option Bytes := (w.files path).map (·.contents)

def setFile (w : ManifestWorld α) (path : Path) (file : Option TimedFile) : ManifestWorld α :=
  let files := Function.update w.files path file
  { w with
    files
    calls := w.calls.map (Call.see fun path => (files path).map (·.contents)) }

def next (fmt : ManifestFormat ρ α) (w : ManifestWorld α) : ManifestEvent → Option (ManifestWorld α)
  | .tick clock => if w.clock ≤ clock then some { w with clock } else none
  | .edit path contents => some (w.setFile path (some ⟨contents, w.clock⟩))
  | .remove path => some (w.setFile path none)
  | .begin manifestPath => some { w with calls := w.calls ++ [{ manifestPath, moments := [w.contents] }] }
  | .step i =>
    w.calls[i]?.map fun call =>
      let (compiled, phase) := Call.step fmt w.clock w.files w.compiled call.manifestPath call.phase
      { w with compiled, calls := w.calls.set i { call with phase } }
  | .kill i => some { w with calls := w.calls.eraseIdx i }

end ManifestWorld
end
end Shuriken
