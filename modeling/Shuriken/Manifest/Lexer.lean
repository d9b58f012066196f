import Shuriken.Lib.LineReader
import Shuriken.Manifest.EvalEnv

/-!
# Tokens of a manifest

`manifest/lexer.in.cpp`. A lexer has the rest of its text, which ends with a zero byte
that is not written here. Of several patterns that match, the one that matches most is
taken, and the first of those.
-/
namespace Shuriken

/-- The ways in which the parsing of a manifest ends without a result. The messages are without the
place in the file and the text there. The last one is not in the source: the depth of the model's
recursion is bounded. -/
inductive ManifestError where
  | parseError (what : String)
  | fatal (what : String)
  | tooDeep
  deriving DecidableEq

namespace Lexer

inductive Token where
  | error
  | build
  | colon
  | default
  | equals
  | ident
  | «include»
  | indent
  | newline
  | pipe
  | pipe2
  | pool
  | rule
  | subninja
  | teof
  deriving DecidableEq

def Token.name : Token → String
  | .error => "lexing error"
  | .build => "'build'"
  | .colon => "':'"
  | .default => "'default'"
  | .equals => "'='"
  | .ident => "identifier"
  | .«include» => "'include'"
  | .indent => "indent"
  | .newline => "newline"
  | .pipe2 => "'||'"
  | .pipe => "'|'"
  | .pool => "'pool'"
  | .rule => "'rule'"
  | .subninja => "'subninja'"
  | .teof => "eof"

def Token.errorHint : Token → String
  | .colon => " ($ also escapes ':')"
  | _ => ""

def Token.ofWord (word : Bytes) : Token :=
  if word = [98, 117, 105, 108, 100] then .build
  else if word = [112, 111, 111, 108] then .pool
  else if word = [114, 117, 108, 101] then .rule
  else if word = [100, 101, 102, 97, 117, 108, 116] then .default
  else if word = [105, 110, 99, 108, 117, 100, 101] then .«include»
  else if word = [115, 117, 98, 110, 105, 110, 106, 97] then .subninja
  else .ident

def isSimpleVarname (c : UInt8) : Bool :=
  (97 ≤ c && c ≤ 122) || (65 ≤ c && c ≤ 90) || (48 ≤ c && c ≤ 57) || c == 95 || c == 45

def isVarname (c : UInt8) : Bool := isSimpleVarname c || c == 46

abbrev newline : UInt8 := 10

abbrev Reader (α : Type) : Type := LineReader UInt8 ManifestError α

/-- What follows the line of a comment. The comment has to end with a newline. -/
def afterComment : Bytes → Option Bytes
  | [] => none
  | 0 :: _ => none
  | 10 :: rest => some rest
  | _ :: rest => afterComment rest

def commentRest : Bytes → Option Bytes
  | 32 :: rest => commentRest rest
  | 35 :: rest => afterComment rest
  | _ => none

/-- Whether only spaces have been read since the start of a line, or a comment has begun -/
inductive CommentMode where
  | spaces
  | comment

/-- The loop of `readToken`, which goes on after comments. `start` is where the round started. -/
def skipFrom (start : Bytes) : CommentMode → Bytes → Bytes
  | _, [] => start
  | .spaces, 32 :: rest => skipFrom start .spaces rest
  | .spaces, 35 :: rest => skipFrom start .comment rest
  | .spaces, _ :: _ => start
  | .comment, 0 :: _ => start
  | .comment, 10 :: rest => skipFrom rest .spaces rest
  | .comment, _ :: rest => skipFrom start .comment rest

def skipComments (text : Bytes) : Bytes := skipFrom text .spaces text

def eatWhitespace : Bytes → Bytes
  | 32 :: rest => eatWhitespace rest
  | 36 :: 13 :: 10 :: rest => eatWhitespace rest
  | 36 :: 10 :: rest => eatWhitespace rest
  | rest => rest

def afterSpaces : Bytes → Token × Bytes
  | 13 :: 10 :: rest => (.newline, rest)
  | 10 :: rest => (.newline, rest)
  | rest => (.indent, rest)

def tokenAt (text : Bytes) : Token × Bytes :=
  match text with
  | 32 :: rest => afterSpaces (rest.dropWhile (· == 32))
  | 13 :: 10 :: rest => (.newline, rest)
  | 10 :: rest => (.newline, rest)
  | [] => (.teof, [])
  | 0 :: rest => (.teof, rest)
  | 61 :: rest => (.equals, rest)
  | 58 :: rest => (.colon, rest)
  | 124 :: 124 :: rest => (.pipe2, rest)
  | 124 :: rest => (.pipe, rest)
  | c :: rest =>
    if isVarname c then (.ofWord (text.takeWhile isVarname), text.dropWhile isVarname) else (.error, rest)

def readToken (text : Bytes) : Token × Bytes × Bytes :=
  let start := skipComments text
  let (token, rest) := tokenAt start
  (token, start, if token = .newline ∨ token = .teof then rest else eatWhitespace rest)

def expectToken (expected : Token) : Reader Unit := fun text =>
  let (token, _, rest) := readToken text
  if token = expected then .ok ((), rest)
  else .error (.parseError ("expected " ++ expected.name ++ ", got " ++ token.name ++ expected.errorHint))

def peekToken (token : Token) : Reader Bool := fun text =>
  let (next, start, rest) := readToken text
  if next = token then .ok (true, rest) else .ok (false, start)

def readIdent (identType : String) : Reader Bytes := fun text =>
  let name := text.takeWhile isVarname
  if name = [] then .error (.parseError ("expected " ++ identType))
  else .ok (name, eatWhitespace (text.dropWhile isVarname))

end Lexer

/-- The text is added to the last part of the string if possible. -/
def EvalString.addText (eval : EvalString) (text : Bytes) : EvalString :=
  match eval.getLast? with
  | some (.raw last) => eval.dropLast ++ [.raw (last ++ text)]
  | _ => eval ++ [.raw text]

def EvalString.addSpecial (eval : EvalString) (var : Bytes) : EvalString := eval ++ [.special var]

namespace Lexer

/-- What a round of the loop of `readEvalString` does -/
inductive EvalAction where
  | addText (text : Bytes)
  | addSpecial (var : Bytes)
  /-- The newline is escaped. -/
  | skip
  | stop
  | error (what : String)

def isPlain (c : UInt8) : Bool := !(c == 36 || c == 32 || c == 58 || c == 13 || c == 10 || c == 124 || c == 0)

def badEscape (rest : Bytes) : EvalAction × Bytes := (.error "bad $-escape (literal $ must be written as $$)", rest)

def closeBrace (var : Bytes) : Bytes → EvalAction × Bytes
  | 125 :: rest => if var = [] then badEscape rest else (.addSpecial var, rest)
  | rest => badEscape rest

def escapeStep : Bytes → EvalAction × Bytes
  | 36 :: rest => (.addText [36], rest)
  | 32 :: rest => (.addText [32], rest)
  | 13 :: 10 :: rest => (.skip, rest.dropWhile (· == 32))
  | 10 :: rest => (.skip, rest.dropWhile (· == 32))
  | 123 :: rest => closeBrace (rest.takeWhile isVarname) (rest.dropWhile isVarname)
  | 58 :: rest => (.addText [58], rest)
  | [] => badEscape []
  | c :: rest =>
    if isSimpleVarname c then
      (.addSpecial ((c :: rest).takeWhile isSimpleVarname), (c :: rest).dropWhile isSimpleVarname)
    else badEscape rest

/-- The loop stops at the end of a line, and for a path before that. -/
def evalStep (path : Bool) : Bytes → EvalAction × Bytes
  | [] => (.error "unexpected EOF", [])
  | 0 :: rest => (.error "unexpected EOF", rest)
  | 13 :: 10 :: rest => (.stop, if path then 13 :: 10 :: rest else rest)
  | 13 :: rest => (.error "lexing error", rest)
  | 10 :: rest => (.stop, if path then 10 :: rest else rest)
  | 36 :: rest => escapeStep rest
  | c :: rest =>
    if isPlain c then (.addText ((c :: rest).takeWhile isPlain), (c :: rest).dropWhile isPlain)
    -- a space, a colon or a bar
    else if path then (.stop, c :: rest)
    else (.addText [c], rest)

/-- The string goes on, or it has ended. -/
def EvalAction.apply (eval : EvalString) : EvalAction → Except ManifestError (EvalString ⊕ EvalString)
  | .addText text => .ok (.inl (eval.addText text))
  | .addSpecial var => .ok (.inl (eval.addSpecial var))
  | .skip => .ok (.inl eval)
  | .stop => .ok (.inr eval)
  | .error what => .error (.parseError what)

def evalRound (path : Bool) (eval : EvalString) : Reader (EvalString ⊕ EvalString) := fun text =>
  let (action, rest) := evalStep path text
  (action.apply eval).map (·, rest)

def readEvalString (path : Bool) : Reader EvalString := do
  let eval ← LineReader.loop .tooDeep (evalRound path) []
  if path then modify eatWhitespace
  return eval

def readPath : Reader EvalString := readEvalString true

def readVarValue : Reader EvalString := readEvalString false

end Lexer
end Shuriken
