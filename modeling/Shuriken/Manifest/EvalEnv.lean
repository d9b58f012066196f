import Shuriken.Fs.Paths
import Shuriken.Lib.ShellWords

/-!
# Variables of rules

Lookups of `manifest/eval_env.cpp`. A rule's bindings are expanded when a step is made from the rule, in the
scope of the build statement.
-/
namespace Shuriken
open List
open ShellWords (quote backslash)

inductive Token where
  | raw (text : Bytes)
  | special (var : Bytes)
  deriving DecidableEq

abbrev EvalString := List Token

namespace EvalString
variable {σ ε : Type} (lookupVariable : σ → Bytes → Except ε (Bytes × σ))

def evaluateToken : Bytes × σ → Token → Except ε (Bytes × σ)
  | (result, s), .raw text => .ok (result ++ text, s)
  | (result, s), .special var => do
      let (value, s) ← lookupVariable s var
      return (result ++ value, s)

def evaluate (s : σ) (parsed : EvalString) : Except ε (Bytes × σ) :=
  parsed.foldlM (evaluateToken lookupVariable) ([], s)

end EvalString

structure Rule where
  bindings : List (Bytes × EvalString) := []
  deriving DecidableEq

def Rule.getBinding (rule : Rule) (key : Bytes) : Option EvalString := rule.bindings.lookup key

inductive BindingEnv where
  | root (bindings : List (Bytes × Bytes))
  | child (bindings : List (Bytes × Bytes)) (parent : BindingEnv)
  deriving DecidableEq

namespace BindingEnv

def bindings : BindingEnv → List (Bytes × Bytes)
  | root bindings => bindings
  | child bindings _ => bindings

def lookupVariable : BindingEnv → Bytes → Bytes
  | root bindings, var => (bindings.lookup var).getD []
  | child bindings parent, var =>
    match bindings.lookup var with
    | some value => value
    | none => parent.lookupVariable var

/-- What the scopes around this one have for a variable. -/
def lookupInParent : BindingEnv → Bytes → Bytes
  | root _, _ => []
  | child _ parent, var => parent.lookupVariable var

/-- `evaluate` is what evaluates `eval` in the scope of the step. -/
def lookupWithFallback {σ ε : Type} (env : BindingEnv) (var : Bytes) (eval : Option EvalString)
    (evaluate : σ → EvalString → Except ε (Bytes × σ)) (s : σ) : Except ε (Bytes × σ) :=
  match env.bindings.lookup var with
  | some value => .ok (value, s)
  | none =>
    match eval with
    | some eval => evaluate s eval
    | none => .ok (env.lookupInParent var, s)

end BindingEnv

def isKnownShellSafeCharacter (ch : UInt8) : Bool :=
  (65 ≤ ch && ch ≤ 90) || (97 ≤ ch && ch ≤ 122) || (48 ≤ ch && ch ≤ 57) || ch ∈ ([95, 43, 45, 46, 47] : Bytes)

/-- Every quote of the input comes after an escape sequence of quote, backslash, quote. -/
def getShellEscapedString (input : Bytes) : Bytes :=
  if input.all isKnownShellSafeCharacter then input
  else
    quote :: (input.flatMap fun ch => if ch = quote then [quote, backslash, quote, ch] else [ch]) ++ [quote]

inductive EscapeKind where
  | shellEscape
  | doNotEscape
  deriving DecidableEq

def inVar : Bytes := [105, 110]
def inNewlineVar : Bytes := [105, 110, 95, 110, 101, 119, 108, 105, 110, 101]
def outVar : Bytes := [111, 117, 116]

structure StepEnv where
  rule : Rule
  env : BindingEnv
  inputs : List PathObject := []
  outputs : List PathObject := []
  escapeInOut : EscapeKind := .doNotEscape

/-- The members of `StepEnvWithoutInAndOut` that change. -/
structure Lookups where
  lookups : List Bytes := []
  recursive : Bool := false
  deriving DecidableEq

/-- How a lookup does not return. The second one is not in the source: the depth of the model's
recursion is bounded, and the bound is not reached. -/
inductive Stop where
  | fatal (what : String)
  | tooDeep
  deriving DecidableEq

namespace StepEnv

def makePathList (E : StepEnv) (paths : List PathObject) (sep : UInt8) : Bytes := paths.foldl (fun result path =>
    (if result = [] then result else result ++ [sep]) ++
      match E.escapeInOut with
      | .shellEscape => getShellEscapedString path.original
      | .doNotEscape => path.original) []

def inOrOut (E : StepEnv) (var : Bytes) : Option Bytes :=
  if var = inVar then some (E.makePathList E.inputs 32)
  else if var = inNewlineVar then some (E.makePathList E.inputs 10)
  else if var = outVar then some (E.makePathList E.outputs 32)
  else none

/-- From the first lookup of the variable on. -/
def cycleMessage (lookups : List Bytes) (var : Bytes) : String := "cycle in rule variables: " ++
    ((lookups.dropWhile (· ≠ var)).foldl (fun cycle name => cycle ++ (displayPath name ++ " -> ")) "" ++
      displayPath var)

/-- The names under which the lookup goes on. The first lookup is not entered. -/
def enter (E : StepEnv) (s : Lookups) (var : Bytes) : Lookups where
  lookups := if s.recursive ∧ (E.rule.getBinding var).isSome then s.lookups ++ [var] else s.lookups
  recursive := true

/-- `StepEnv::lookupVariable`, with that of `StepEnvWithoutInAndOut`. The first argument bounds the
depth of the recursion. -/
def lookupVariable (E : StepEnv) : Nat → Lookups → Bytes → Except Stop (Bytes × Lookups)
  | 0, _, _ => .error .tooDeep
  | depth + 1, s, var =>
    match E.inOrOut var with
    | some value => .ok (value, s)
    | none =>
      if s.recursive ∧ var ∈ s.lookups then .error (.fatal (cycleMessage s.lookups var))
      else
        E.env.lookupWithFallback var (E.rule.getBinding var)
          (fun s eval => eval.evaluate (E.lookupVariable depth) s) (E.enter s var)

def lookup (E : StepEnv) (var : Bytes) : Except Stop Bytes :=
  (E.lookupVariable (E.rule.bindings.length + 2) {} var).map Prod.fst

end StepEnv
end Shuriken
