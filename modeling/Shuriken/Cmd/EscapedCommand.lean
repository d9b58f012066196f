import Shuriken.Build.Graph
import Shuriken.Lib.ShellWords
import Shuriken.Manifest.EvalEnv

/-!
# Commands that a shell takes apart

Paths and commands are escaped before they become a part of a command. The shell
splits the command into words, and the words have to be the paths and the command
that were escaped.
-/
namespace Shuriken
open Option List
open ShellWords (Word quote backslash reading)

def kEscapeSequence : Bytes := [quote, backslash, quote]

/-- The loop of `getShellEscapedString`. The span goes from `span_begin` to where the loop is. A
quote ends a span and starts the next one. -/
def escapeLoop (result span : Bytes) : Bytes → Bytes
  | [] => result ++ span
  | ch :: input =>
    if ch = quote then escapeLoop (result ++ span ++ kEscapeSequence) [ch] input
    else escapeLoop result (span ++ [ch]) input

def escapeByte (ch : UInt8) : Bytes := if ch = quote then kEscapeSequence ++ [ch] else [ch]

theorem escapeLoop_eq (result span input : Bytes) :
    escapeLoop result span input = result ++ span ++ input.flatMap escapeByte := by
  induction input generalizing result span with
  | nil => simp [escapeLoop]
  | cons ch input ih =>
    rw [escapeLoop, flatMap_cons, escapeByte]
    split
    · rw [ih]
      simp
    · rw [ih]
      simp

theorem getShellEscapedString_eq (input : Bytes) : getShellEscapedString input =
      if input.all isKnownShellSafeCharacter then input else escapeLoop [quote] [] input ++ [quote] := by
  rw [getShellEscapedString, escapeLoop_eq]
  simp only [append_nil, singleton_append]
  rfl

theorem isLiteral_of_safe {c : UInt8} (h : isKnownShellSafeCharacter c = true) : ShellWords.isLiteral c = true := by
  have hall : ∀ n : Fin 256, isKnownShellSafeCharacter (UInt8.ofFin n) = true →
      ShellWords.isLiteral (UInt8.ofFin n) = true := by
    decide +kernel
  exact hall c.toFin h

variable {words : List Word} {word : Word} {input : Bytes}

theorem foldlM_escapeByte (ch : UInt8) :
    (escapeByte ch).foldlM ShellWords.step { reading words word with mode := .quoted } =
      some { reading words (word ++ [ch]) with mode := .quoted } := by
  rw [escapeByte]
  split
  · next hquote =>
    subst hquote
    rfl
  · next hquote =>
    refine ShellWords.foldlM_quoted fun hmem => hquote ?_
    exact (mem_singleton.mp hmem).symm

theorem foldlM_flatMap_escapeByte (input : Bytes) :
    (input.flatMap escapeByte).foldlM ShellWords.step { reading words word with mode := .quoted } =
      some { reading words (word ++ input) with mode := .quoted } := by
  induction input generalizing word with
  | nil =>
    rw [append_nil]
    rfl
  | cons ch input ih =>
    rw [flatMap_cons, foldlM_append, foldlM_escapeByte, bind_eq_bind, bind_some, ih, append_assoc]
    rfl

theorem foldlM_getShellEscapedString (hne : input ≠ []) :
    (getShellEscapedString input).foldlM ShellWords.step { words } = some (reading words input) := by
  rw [getShellEscapedString_eq, escapeLoop_eq]
  split
  · next hsafe =>
    refine ShellWords.foldlM_literal_word ?_ hne
    exact all_eq_true.mpr fun c hc => isLiteral_of_safe (all_eq_true.mp hsafe c hc)
  · rw [append_nil, append_assoc, singleton_append, foldlM_cons,
      show ShellWords.step { words } quote = _ from ShellWords.step_open words, bind_eq_bind, bind_some,
      foldlM_append, foldlM_flatMap_escapeByte]
    rfl

section
variable {E : StepEnv} (hescape : E.escapeInOut = .shellEscape)
include hescape

theorem makePathList_concat (paths : List PathObject) (path : PathObject) (sep : UInt8) :
    E.makePathList (paths ++ [path]) sep =
      (if E.makePathList paths sep = [] then [] else E.makePathList paths sep ++ [sep]) ++
        getShellEscapedString path.original := by
  rw [StepEnv.makePathList, foldl_append, ← StepEnv.makePathList, foldl_cons, foldl_nil]
  simp only [hescape]
  split
  · next hnil => rw [hnil]
  · rfl

variable {paths : List PathObject} {path : PathObject}

theorem makePathList_concat_ne_nil (hpath : path.original ≠ []) (sep : UInt8) :
    E.makePathList (paths ++ [path]) sep ≠ [] := by
  rw [makePathList_concat hescape]
  refine append_ne_nil_of_right_ne_nil _ ?_
  rw [getShellEscapedString]
  split
  · exact hpath
  · exact cons_ne_nil _ _

theorem foldlM_makePathList (hpaths : ∀ p ∈ paths ++ [path], p.original ≠ []) :
    (E.makePathList (paths ++ [path]) 32).foldlM ShellWords.step {} =
      some (reading (paths.map (·.original)) path.original) := by
  have hne : path.original ≠ [] := hpaths path (by simp)
  induction paths using reverseRecOn generalizing path with
  | nil =>
    rw [makePathList_concat hescape]
    exact foldlM_getShellEscapedString hne
  | append_singleton paths last ih =>
    have hinit : ∀ p ∈ paths ++ [last], p.original ≠ [] := (forall_mem_append.mp hpaths).1
    have hlast : last.original ≠ [] := hinit last (by simp)
    rw [makePathList_concat hescape, if_neg (makePathList_concat_ne_nil hescape hlast 32), append_assoc,
      singleton_append, ShellWords.foldlM_append_space (ih hinit hlast),
      foldlM_getShellEscapedString hne]
    simp

theorem words_makePathList (hpaths : ∀ p ∈ paths, p.original ≠ []) :
    ShellWords.words (E.makePathList paths 32) = some (paths.map (·.original)) := by
  rcases eq_nil_or_concat' paths with rfl | ⟨init, last, rfl⟩
  · rfl
  · rw [ShellWords.words_of_reading (foldlM_makePathList hescape hpaths)]
    simp

end

def isPortable (c : UInt8) : Bool :=
  (65 ≤ c && c ≤ 90) || (97 ≤ c && c ≤ 122) || (48 ≤ c && c ≤ 57) || c ∈ ([46, 95, 45] : Bytes)

/-- A file that `mkstemp` has made for the template `shk.tmp.sb.XXXXXXXX`. The bytes that it puts at
the end are portable in file names. -/
structure TemporaryFile where
  suffix : Bytes
  portable : suffix.all isPortable = true

def TemporaryFile.path (tmp : TemporaryFile) : Path := [115, 104, 107, 46, 116, 109, 112, 46, 115, 98, 46] ++ tmp.suffix

structure TracingCommandRunner where
  escapedShkTraceCmd : Bytes

namespace TracingCommandRunner

def new (shkTracePath : Bytes) : TracingCommandRunner := ⟨getShellEscapedString shkTracePath⟩

/-- The command that the inner runner gets. The server may fail to start, and there may be no
temporary file. -/
def invoke (r : TracingCommandRunner) (startServer : Except String Unit) (tmp : Option TemporaryFile)
    (command : Bytes) {n : Nat} (step : Step n) : Except IoError Bytes :=
  if command = [] || step.generator || isConsolePool step.poolName then .ok command
  else
    match startServer with
    | .error err => .error ⟨"Failed to start shk-trace server: " ++ err, 0⟩
    | .ok () =>
      match tmp with
      | none => .ok "/bin/echo Failed to create temporary file && exit 1".toUTF8.toList
      | some tmp =>
        -- the options -f and -c
        .ok (r.escapedShkTraceCmd ++ [32, 45, 102, 32, quote] ++ tmp.path ++ [quote, 32, 45, 99, 32] ++
          getShellEscapedString command)

end TracingCommandRunner

theorem quote_not_mem_path (tmp : TemporaryFile) : quote ∉ tmp.path := by
  intro hmem
  rcases mem_append.mp hmem with hmem | hmem
  · exact absurd hmem (by decide)
  · exact absurd (all_eq_true.mp tmp.portable quote hmem) (by decide)

theorem foldlM_shkTraceCmd (shkTracePath : Bytes) (next : Bytes) :
    ∃ words, (getShellEscapedString shkTracePath ++ 32 :: next).foldlM ShellWords.step {} =
      next.foldlM ShellWords.step { words } := by
  by_cases hempty : shkTracePath = []
  · subst hempty
    exact ⟨[], rfl⟩
  · exact ⟨_, ShellWords.foldlM_append_space (foldlM_getShellEscapedString hempty)⟩

theorem words_traced (shkTracePath : Bytes) (tmp : TemporaryFile) {command : Bytes} (h : command ≠ []) :
    ∃ words, ShellWords.words (getShellEscapedString shkTracePath ++ [32, 45, 102, 32, quote] ++ tmp.path ++
      [quote, 32, 45, 99, 32] ++ getShellEscapedString command) = some (words ++ [command]) := by
  have hpath : ∀ ws, (quote :: (tmp.path ++ [quote])).foldlM ShellWords.step { words := ws } = _ :=
    fun _ => ShellWords.foldlM_quoted_word (quote_not_mem_path tmp)
  obtain ⟨words, hcmd⟩ := foldlM_shkTraceCmd shkTracePath
    ([45, 102] ++ 32 :: (quote :: (tmp.path ++ [quote]) ++ 32 :: ([45, 99] ++ 32 :: getShellEscapedString command)))
  refine ⟨words ++ [[45, 102]] ++ [tmp.path] ++ [[45, 99]], ShellWords.words_of_reading ?_⟩
  rw [ShellWords.foldlM_append_space (ShellWords.foldlM_literal_word rfl (cons_ne_nil _ _)),
    ShellWords.foldlM_append_space (hpath _),
    ShellWords.foldlM_append_space (ShellWords.foldlM_literal_word rfl (cons_ne_nil _ _)),
    foldlM_getShellEscapedString h] at hcmd
  rw [← hcmd]
  simp only [append_assoc, cons_append, nil_append]

/-- What is escaped is what the command gets: the words of a list of paths are the paths, and the last
word of a command that is traced is the command. -/
theorem escaped_text_reaches_command {E : StepEnv} (hescape : E.escapeInOut = .shellEscape)
    {paths : List PathObject} (hpaths : ∀ p ∈ paths, p.original ≠ [])
    (shkTracePath : Bytes) (tmp : TemporaryFile) {command : Bytes} (hcommand : command ≠ [])
    {n : Nat} {step : Step n} (hgenerator : step.generator = false) (hpool : isConsolePool step.poolName = false) :
    ShellWords.words (E.makePathList paths 32) = some (paths.map (·.original)) ∧
      ∃ text words, (TracingCommandRunner.new shkTracePath).invoke (.ok ()) (some tmp) command step = .ok text ∧
        ShellWords.words text = some (words ++ [command]) := by
  refine ⟨words_makePathList hescape hpaths, ?_⟩
  obtain ⟨words, hwords⟩ := words_traced shkTracePath tmp hcommand
  refine ⟨_, words, ?_, hwords⟩
  rw [TracingCommandRunner.invoke, hgenerator, hpool, decide_eq_false hcommand]
  rfl

/-- The path `a' b` and the command `echo '$x'`. -/
theorem escaped_quote_reaches_command :
    ShellWords.words (StepEnv.makePathList { rule := {}, env := .root [], escapeInOut := .shellEscape }
        [⟨0, [97, 39, 32, 98]⟩, ⟨1, [99]⟩] 32) = some [[97, 39, 32, 98], [99]] ∧
      ∃ text words, (TracingCommandRunner.new [115]).invoke (.ok ()) (some ⟨[120], rfl⟩)
          [101, 99, 104, 111, 32, 39, 36, 120, 39] ({ hash := .zero } : Step 0) = .ok text ∧
        ShellWords.words text = some (words ++ [[101, 99, 104, 111, 32, 39, 36, 120, 39]]) :=
  escaped_text_reaches_command rfl (by decide) [115] ⟨[120], rfl⟩ (by decide) rfl rfl

end Shuriken
