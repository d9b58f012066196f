import Shuriken.Cmd.Pooled
import Shuriken.Manifest.Compile
import Shuriken.Manifest.Lexer

/-!
# Parsing a manifest

`manifest/raw_manifest.cpp`. A parser reads one file.
-/
namespace Shuriken
open Lexer (Reader readToken peekToken expectToken readIdent readVarValue skipComments)

/-- A `BindingEnv` object. The parent is given by its number. -/
structure Scope where
  bindings : List (Bytes × Bytes) := []
  rules : List (Bytes × Rule) := []
  parent : Option Nat := none

/-- All scopes that were made, the newest first. Their numbers go from 0 upwards, so that a scope has
a larger number than its parent. -/
abbrev Scopes := List Scope

namespace Scopes

def toBindingEnv : Scopes → Nat → BindingEnv
  | [], _ => .root []
  | scope :: older, i =>
    if i = older.length then
      match scope.parent with
      | none => .root scope.bindings
      | some parent => .child scope.bindings (toBindingEnv older parent)
    else toBindingEnv older i

def lookupRuleCurrentScope : Scopes → Nat → Bytes → Option Rule
  | [], _, _ => none
  | scope :: older, i, name =>
    if i = older.length then scope.rules.lookup name else lookupRuleCurrentScope older i name

def lookupRule : Scopes → Nat → Bytes → Option Rule
  | [], _, _ => none
  | scope :: older, i, name =>
    if i = older.length then
      match scope.rules.lookup name with
      | some rule => some rule
      | none => scope.parent.bind fun parent => lookupRule older parent name
    else lookupRule older i name

def modify (f : Scope → Scope) : Scopes → Nat → Scopes
  | [], _ => []
  | scope :: older, i => if i = older.length then f scope :: older else scope :: modify f older i

def addBinding (scopes : Scopes) (env : Nat) (key value : Bytes) : Scopes :=
  scopes.modify (fun scope => { scope with bindings := (key, value) :: scope.bindings }) env

def addRule (scopes : Scopes) (env : Nat) (name : Bytes) (rule : Rule) : Scopes :=
  scopes.modify (fun scope => { scope with rules := (name, rule) :: scope.rules }) env

end Scopes

def EvalString.evaluateIn (env : BindingEnv) (eval : EvalString) : Bytes := eval.flatMap fun
    | .raw text => text
    | .special var => env.lookupVariable var

structure ParserState where
  paths : Paths := {}
  scopes : Scopes := []
  pools : List (Bytes × Int) := []
  steps : List RawStep := []
  defaults : List PathObject := []
  /-- The scope and the rule of each step -/
  postprocessingData : List (Nat × Rule) := []

def parseError {α : Type} (what : String) : Except ManifestError α := .error (.parseError what)

namespace ParserState

def evaluate (st : ParserState) (env : Nat) (eval : EvalString) : Bytes := eval.evaluateIn (st.scopes.toBindingEnv env)

def toPath (S : Stater) (paths : Paths) (str : Bytes) : Except ManifestError (Paths × PathObject) :=
  if str = [] then parseError "empty path"
  else
    match paths.get S str with
    | (paths, .ok path) => .ok (paths, path)
    | (_, .error error) => parseError error.what

def evalStringsToPaths (S : Stater) (env : BindingEnv) (paths : Paths) (evals : List EvalString) :
    Except ManifestError (Paths × List PathObject) :=
  evals.foldlM (fun (paths, result) eval => do
    let (paths, path) ← toPath S paths (eval.evaluateIn env)
    return (paths, result ++ [path])) (paths, [])

def checkPool (st : ParserState) (name : Bytes) : Except ManifestError Unit :=
  if (st.pools.lookup name).isSome then parseError ("duplicate pool '" ++ displayPath name ++ "'") else .ok ()

def addPoolBinding (st : ParserState) (env : Nat) (depth : Int) (binding : Bytes × EvalString) :
    Except ManifestError Int :=
  (parseDepth depth (binding.1, st.evaluate env binding.2)).mapError .parseError

def addPool (st : ParserState) (name : Bytes) (depth : Int) : Except ManifestError ParserState :=
  if depth < 0 then parseError "expected 'depth =' line" else .ok { st with pools := st.pools ++ [(name, depth)] }

end ParserState

def commandVar : Bytes := [99, 111, 109, 109, 97, 110, 100]
def depfileVar : Bytes := [100, 101, 112, 102, 105, 108, 101]
def descriptionVar : Bytes := [100, 101, 115, 99, 114, 105, 112, 116, 105, 111, 110]
def depsVar : Bytes := [100, 101, 112, 115]
def generatorVar : Bytes := [103, 101, 110, 101, 114, 97, 116, 111, 114]
def poolVar : Bytes := [112, 111, 111, 108]
def restatVar : Bytes := [114, 101, 115, 116, 97, 116]
def rspfileVar : Bytes := [114, 115, 112, 102, 105, 108, 101]
def rspfileContentVar : Bytes := [114, 115, 112, 102, 105, 108, 101, 95, 99, 111, 110, 116, 101, 110, 116]
def msvcDepsPrefixVar : Bytes := [109, 115, 118, 99, 95, 100, 101, 112, 115, 95, 112, 114, 101, 102, 105, 120]

def isReservedBinding (var : Bytes) : Bool :=
  var ∈ [commandVar, depfileVar, descriptionVar, depsVar, generatorVar, poolVar, restatVar, rspfileVar,
    rspfileContentVar, msvcDepsPrefixVar]

abbrev RuleBindings : Type := List (Bytes × EvalString)

/-- A binding that is there already is kept. -/
def RuleBindings.emplace (bindings : RuleBindings) (key : Bytes) (value : EvalString) : RuleBindings :=
  if (bindings.lookup key).isSome then bindings else bindings ++ [(key, value)]

/-- Whether a binding is empty. One that was not there is from then on. -/
def RuleBindings.isEmpty (bindings : RuleBindings) (key : Bytes) : Bool × RuleBindings :=
  let bindings := bindings.emplace key []
  (((bindings.lookup key).getD []).isEmpty, bindings)

def addRuleBinding (bindings : RuleBindings) (binding : Bytes × EvalString) : Except ManifestError RuleBindings :=
  if isReservedBinding binding.1 then .ok (bindings.emplace binding.1 binding.2)
  else parseError ("unexpected variable '" ++ displayPath binding.1 ++ "'")

namespace ParserState

def checkRule (st : ParserState) (env : Nat) (name : Bytes) : Except ManifestError Unit :=
  if (st.scopes.lookupRuleCurrentScope env name).isSome then
    parseError ("duplicate rule '" ++ displayPath name ++ "'")
  else .ok ()

def addRule (st : ParserState) (env : Nat) (name : Bytes) (bindings : RuleBindings) :
    Except ManifestError ParserState :=
  let (noRspfile, bindings) := bindings.isEmpty rspfileVar
  let (noContent, bindings) := bindings.isEmpty rspfileContentVar
  if noRspfile ≠ noContent then parseError "rspfile and rspfile_content need to be both specified"
  else
    let (noCommand, bindings) := bindings.isEmpty commandVar
    if noCommand then parseError "expected 'command =' line"
    else .ok { st with scopes := st.scopes.addRule env name { bindings } }

def findRule (st : ParserState) (env : Nat) (name : Bytes) : Except ManifestError Rule :=
  match st.scopes.lookupRule env name with
  | some rule => .ok rule
  | none => parseError ("unknown build rule '" ++ displayPath name ++ "'")

end ParserState

def StepEnv.lookupVariableWithoutInAndOut (E : StepEnv) : Nat → Lookups → Bytes → Except Stop (Bytes × Lookups)
  | 0, _, _ => .error .tooDeep
  | depth + 1, s, var =>
    if s.recursive ∧ var ∈ s.lookups then .error (.fatal (StepEnv.cycleMessage s.lookups var))
    else
      E.env.lookupWithFallback var (E.rule.getBinding var)
        (fun s eval => eval.evaluate (E.lookupVariableWithoutInAndOut depth) s) (E.enter s var)

def Stop.toManifestError : Stop → ManifestError
  | .fatal what => .fatal what
  | .tooDeep => .tooDeep

namespace ParserState

def getPoolName (st : ParserState) (rule : Rule) (env : BindingEnv) : Except ManifestError Bytes := do
  let lookups := StepEnv.lookupVariableWithoutInAndOut { rule, env } (rule.bindings.length + 2) {} poolVar
  let (poolName, _) ← lookups.mapError Stop.toManifestError
  if poolName ≠ [] ∧ st.pools.lookup poolName = none then
    parseError ("unknown pool name '" ++ displayPath poolName ++ "'")
  else .ok poolName

/-- The scope of a step, if it has bindings. They are evaluated in the scope around it. -/
def addStepBinding (st : ParserState) (env : Nat) (bindings : Option (List (Bytes × Bytes)))
    (binding : Bytes × EvalString) : Except ManifestError (Option (List (Bytes × Bytes))) :=
  .ok (some ((binding.1, st.evaluate env binding.2) :: bindings.getD []))

def newScope (st : ParserState) (bindings : List (Bytes × Bytes)) (env : Nat) : ParserState × Nat :=
  ({ st with scopes := { bindings, parent := some env } :: st.scopes }, st.scopes.length)

def stepScope (st : ParserState) (env : Nat) : Option (List (Bytes × Bytes)) → ParserState × Nat
  | none => (st, env)
  | some bindings => st.newScope bindings env

structure StepText where
  rule : Rule
  outs : List EvalString
  ins : List EvalString
  implicit : List EvalString
  orderOnly : List EvalString

def addStep (S : Stater) (st : ParserState) (env : Nat) (text : StepText)
    (bindings : Option (List (Bytes × Bytes))) : Except ManifestError ParserState := do
  let (st, env) := st.stepScope env bindings
  let scope := st.scopes.toBindingEnv env
  let (paths, inputs) ← evalStringsToPaths S scope st.paths text.ins
  let (paths, implicitInputs) ← evalStringsToPaths S scope paths text.implicit
  let (paths, dependencies) ← evalStringsToPaths S scope paths text.orderOnly
  let (paths, outputs) ← evalStringsToPaths S scope paths text.outs
  let poolName ← st.getPoolName text.rule scope
  return { st with
    paths
    postprocessingData := st.postprocessingData ++ [(env, text.rule)]
    steps := st.steps ++ [{ inputs, implicitInputs, dependencies, outputs, poolName }] }

def addDefault (S : Stater) (st : ParserState) (env : Nat) (eval : EvalString) : Except ManifestError ParserState := do
  let (paths, path) ← toPath S st.paths (st.evaluate env eval)
  return { st with paths, defaults := st.defaults ++ [path] }

end ParserState

def atoi (text : Bytes) : Int := (Int32.ofInt (atol text)).toInt

/-- The number of bytes of the minor version is given as the place where it ends, which is too large. -/
def parseVersion (version : Bytes) : Int × Int :=
  let major := version.takeWhile (· ≠ 46)
  match version.dropWhile (· ≠ 46) with
  | [] => (atoi major, 0)
  | _ :: rest =>
    let minor := rest.takeWhile (· ≠ 46)
    (atoi major, atoi (if minor = rest then rest else rest.take (major.length + 1 + minor.length)))

def kNinjaVersion : Bytes := [49, 46, 54, 46, 48, 46, 103, 105, 116]

/-- The warning about older versions is left out. -/
def checkNinjaVersion (version : Bytes) : Except ManifestError Unit :=
  let (binMajor, binMinor) := parseVersion kNinjaVersion
  let (fileMajor, fileMinor) := parseVersion version
  if (binMajor = fileMajor ∧ binMinor < fileMinor) ∨ binMajor < fileMajor then
    .error (.fatal ("shk version (" ++ displayPath kNinjaVersion ++ ") incompatible with build file " ++
      "ninja_required_version version (" ++ displayPath version ++ ")."))
  else .ok ()

def ninjaRequiredVersionVar : Bytes :=
  [110, 105, 110, 106, 97, 95, 114, 101, 113, 117, 105, 114, 101, 100, 95, 118, 101, 114, 115, 105, 111, 110]

namespace ParserState

def addBinding (st : ParserState) (env : Nat) (binding : Bytes × EvalString) : Except ManifestError ParserState := do
  let value := st.evaluate env binding.2
  if binding.1 = ninjaRequiredVersionVar then checkNinjaVersion value
  return { st with scopes := st.scopes.addBinding env binding.1 value }

end ParserState

def parseLet : Reader (Bytes × EvalString) := do
  let key ← readIdent "variable name"
  expectToken .equals
  let val ← readVarValue
  return (key, val)

section
variable {σ : Type} (step : σ → Bytes × EvalString → Except ManifestError σ)

def bindingsRound (s : σ) : Reader (σ ⊕ σ) := do
  if ← peekToken .indent then
    let binding ← parseLet
    liftM ((step s binding).map .inl)
  else return .inr s

def parseIndented (s : σ) : Reader σ := LineReader.loop .tooDeep (bindingsRound step) s

end

def pathsRound (paths : List EvalString) : Reader (List EvalString ⊕ List EvalString) := do
  let path ← Lexer.readPath
  return if path = [] then .inr paths else .inl (paths ++ [path])

def parsePaths : Reader (List EvalString) := LineReader.loop .tooDeep pathsRound []

def parsePathsAfter (token : Lexer.Token) : Reader (List EvalString) := do
  if ← peekToken token then parsePaths else return []

namespace ParserState
variable (S : Stater) (env : Nat) (st : ParserState)

def parsePool : Reader ParserState := do
  let name ← readIdent "pool name"
  expectToken .newline
  liftM (st.checkPool name)
  let depth ← parseIndented (st.addPoolBinding env) (-1)
  liftM (st.addPool name depth)

def parseRule : Reader ParserState := do
  let name ← readIdent "rule name"
  expectToken .newline
  liftM (st.checkRule env name)
  let bindings ← parseIndented addRuleBinding []
  liftM (st.addRule env name bindings)

def checkOutputs (outs : List EvalString) : Except ManifestError Unit :=
  if outs = [] then parseError "expected path" else .ok ()

def parseStepLine : Reader StepText := do
  let outs ← parsePaths
  liftM (checkOutputs outs)
  expectToken .colon
  let ruleName ← readIdent "build command name"
  let rule ← liftM (st.findRule env ruleName)
  let ins ← parsePaths
  let implicit ← parsePathsAfter .pipe
  let orderOnly ← parsePathsAfter .pipe2
  expectToken .newline
  return { rule, outs, ins, implicit, orderOnly }

def parseStep : Reader ParserState := do
  let text ← st.parseStepLine env
  let bindings ← parseIndented (st.addStepBinding env) none
  liftM (st.addStep S env text bindings)

def checkTarget (eval : EvalString) : Except ManifestError Unit :=
  if eval = [] then parseError "expected target name" else .ok ()

def defaultRound : ParserState × EvalString → Reader ((ParserState × EvalString) ⊕ ParserState)
  | (st, eval) => do
      let st ← liftM (st.addDefault S env eval)
      let eval ← Lexer.readPath
      return if eval = [] then .inr st else .inl (st, eval)

def parseDefault : Reader ParserState := do
  let eval ← Lexer.readPath
  liftM (checkTarget eval)
  let st ← LineReader.loop .tooDeep (defaultRound S env) (st, eval)
  expectToken .newline
  return st

def parseBinding : Reader ParserState := do
  let binding ← parseLet
  liftM (st.addBinding env binding)

def parseFileName : Reader Path := do
  let eval ← Lexer.readPath
  return st.evaluate env eval

end ParserState

structure ManifestFileSystem extends Stater where
  readFile : Path → Except IoError Bytes

def ManifestFileSystem.load (F : ManifestFileSystem) (filename : Path) : Except ManifestError Bytes :=
  (F.readFile filename).mapError fun error => .parseError ("loading '" ++ displayPath filename ++ "': " ++ error.what)

def Lexer.describeLastError : Bytes → String
  | 9 :: _ => "tabs are not allowed, use spaces"
  | _ => "lexing error"

/-- What a round of the loop of `parse` comes to -/
inductive ParseRound where
  /-- A statement has been read. -/
  | next (st : ParserState)
  /-- A file has to be loaded, and after that the line has to end. -/
  | load (newScope : Bool) (filename : Path)
  | done

section
variable (S : Stater) (env : Nat) (st : ParserState)

def parseToken (start : Bytes) : Lexer.Token → Reader ParseRound
  | .pool => .next <$> st.parsePool env
  | .build => .next <$> st.parseStep S env
  | .rule => .next <$> st.parseRule env
  | .default => .next <$> st.parseDefault S env
  | .ident => .next <$> st.parseBinding env
  | .«include» => .load false <$> st.parseFileName env
  | .subninja => .load true <$> st.parseFileName env
  | .error => liftM (parseError (Lexer.describeLastError start) : Except ManifestError ParseRound)
  | .teof => return .done
  | .newline => return .next st
  | token => liftM (parseError ("unexpected " ++ token.name) : Except ManifestError ParseRound)

/-- One round of the loop of `parse`, without the loading of files. An identifier is unread. -/
def parseRound : Reader ParseRound := fun text =>
  let (token, start, rest) := readToken text
  (parseToken S env st start token).run (if token = .ident then start else rest)

end

def ParserState.fileScope (st : ParserState) (env : Nat) (newScope : Bool) : ParserState × Nat :=
  if newScope then st.newScope [] env else (st, env)

/-- `parse`, and `load` for the files that are named in the text. The first number bounds the rounds and
the depth of the files. The last result is `manifest_files`. -/
def parse (F : ManifestFileSystem) : Nat → Nat → ParserState → List Path → Bytes →
    Except ManifestError (ParserState × List Path)
  | 0, _, _, _, _ => .error .tooDeep
  | fuel + 1, env, st, files, text => do
      match ← (parseRound F.toStater env st).run text with
      | (.next st, rest) => parse F fuel env st files rest
      | (.done, _) => return (st, files)
      | (.load newScope filename, rest) =>
        let contents ← F.load filename
        let (st, inner) := st.fileScope env newScope
        let (st, files) ← parse F fuel inner st (files ++ [filename]) contents
        let (_, rest) ← (expectToken .newline).run rest
        parse F fuel env st files rest

namespace ParserState

def getBinding (st : ParserState) (data : Nat × Rule) (step : RawStep) (escapeInOut : EscapeKind) (key : Bytes) :
    Except ManifestError Bytes :=
  (StepEnv.lookup
    { rule := data.2, env := st.scopes.toBindingEnv data.1
      inputs := step.inputs, outputs := step.outputs, escapeInOut }
    key).mapError Stop.toManifestError

def postprocessStep (st : ParserState) (data : Nat × Rule) (step : RawStep) : Except ManifestError RawStep := do
  let command ← st.getBinding data step .shellEscape commandVar
  let description ← st.getBinding data step .doNotEscape descriptionVar
  let generator ← st.getBinding data step .doNotEscape generatorVar
  let depfile ← st.getBinding data step .doNotEscape depfileVar
  let rspfile ← st.getBinding data step .doNotEscape rspfileVar
  let rspfileContent ← st.getBinding data step .doNotEscape rspfileContentVar
  return { step with
    command, description, generator := generator ≠ [], depfile, rspfile, rspfileContent }

def builddirVar : Bytes := [98, 117, 105, 108, 100, 100, 105, 114]

def postprocessSteps (st : ParserState) (manifestFiles : List Path) : Except ManifestError RawManifest := do
  let steps ← (st.postprocessingData.zip st.steps).mapM fun (data, step) => st.postprocessStep data step
  return {
    steps
    defaults := st.defaults
    pools := st.pools
    buildDir := (st.scopes.toBindingEnv 0).lookupVariable builddirVar
    manifestFiles }

def initial (paths : Paths) : ParserState where
  paths
  pools := [([99, 111, 110, 115, 111, 108, 101], 1)]
  scopes := [{ rules := [([112, 104, 111, 110, 121], {})] }]

end ParserState

def parseManifest (F : ManifestFileSystem) (fuel : Nat) (paths : Paths) (path : Path) :
    Except ManifestError (RawManifest × Paths) := do
  let contents ← F.load path
  let (st, files) ← parse F fuel 0 (ParserState.initial paths) [path] contents
  let manifest ← st.postprocessSteps files
  return (manifest, st.paths)

end Shuriken
