/-!
# Words of a shell command

How a shell splits a text into words: blanks end a word, single quotes and backslashes take their meaning away
from the bytes after them.
-/
namespace ShellWords
open List

abbrev Word := List UInt8

def quote : UInt8 := 39
def backslash : UInt8 := 92
def newline : UInt8 := 10

def isBlank (c : UInt8) : Bool := c = 32 || c = 9 || c = newline

/-- The bytes `! " # $ % & ( ) * ; < = > ? [ ]` and the backquote, braces, bar and tilde. -/
def isSpecial (c : UInt8) : Bool :=
  c ∈ ([33, 34, 35, 36, 37, 38, 40, 41, 42, 59, 60, 61, 62, 63, 91, 93, 96, 123, 124, 125, 126] : List UInt8)

inductive Mode where
  | plain
  | quoted
  | escaped
  deriving DecidableEq

/-- The words that are complete, and the one that is being read. -/
structure State where
  words : List Word := []
  word : Option Word := none
  mode : Mode := .plain

def State.add (s : State) (c : UInt8) : State := { s with word := some (s.word.getD [] ++ [c]), mode := .plain }

def step (s : State) (c : UInt8) : Option State :=
  match s.mode with
  | .quoted => if c = quote then some { s with mode := .plain } else some { s.add c with mode := .quoted }
  -- a newline that is escaped is left out
  | .escaped => if c = newline then some { s with mode := .plain } else some (s.add c)
  | .plain =>
    if isBlank c then some { words := s.words ++ s.word.toList }
    else if c = quote then some { s with word := some (s.word.getD []), mode := .quoted }
    else if c = backslash then some { s with mode := .escaped }
    else if isSpecial c then none
    else some (s.add c)

/-- The words of a text. There are none when a quote is not closed. -/
def words (text : List UInt8) : Option (List Word) :=
  (text.foldlM step {}).bind fun s => if s.mode = .plain then some (s.words ++ s.word.toList) else none

def isLiteral (c : UInt8) : Bool := !isBlank c && c != quote && c != backslash && !isSpecial c

def reading (words : List Word) (word : Word) : State := { words, word := some word }

theorem step_literal {s : State} (hs : s.mode = .plain) {c : UInt8} (hc : isLiteral c = true) :
    step s c = some (s.add c) := by
  simp only [isLiteral, Bool.and_eq_true, Bool.not_eq_true', bne_iff_ne] at hc
  obtain ⟨⟨⟨hblank, hquote⟩, hbackslash⟩, hspecial⟩ := hc
  rw [step, hs]
  simp only [hblank, hspecial, if_neg hquote, if_neg hbackslash, Bool.false_eq_true, if_false]

theorem foldlM_literal {words : List Word} {word : Word} {text : List UInt8} (h : text.all isLiteral = true) :
    text.foldlM step (reading words word) = some (reading words (word ++ text)) := by
  induction text generalizing word with
  | nil =>
    rw [append_nil]
    rfl
  | cons c text ih =>
    rw [all_cons, Bool.and_eq_true] at h
    rw [foldlM_cons, step_literal rfl h.1]
    have hrest : text.foldlM step (reading words (word ++ [c])) = _ := ih h.2
    simpa [State.add, reading] using hrest

theorem foldlM_quoted {words : List Word} {word : Word} {text : List UInt8} (h : quote ∉ text) :
    text.foldlM step { reading words word with mode := .quoted } =
      some { reading words (word ++ text) with mode := .quoted } := by
  induction text generalizing word with
  | nil =>
    rw [append_nil]
    rfl
  | cons c text ih =>
    rw [mem_cons, not_or] at h
    rw [foldlM_cons, step]
    simp only [reading, if_neg (Ne.symm h.1), State.add, Option.getD_some]
    have hrest : text.foldlM step { reading words (word ++ [c]) with mode := .quoted } = _ := ih h.2
    simpa [reading] using hrest

theorem foldlM_literal_word {ws : List Word} {text : List UInt8} (h : text.all isLiteral = true)
    (hne : text ≠ []) : text.foldlM step { words := ws } = some (reading ws text) := by
  obtain ⟨c, text, rfl⟩ := exists_cons_of_ne_nil hne
  rw [all_cons, Bool.and_eq_true] at h
  rw [foldlM_cons, step_literal rfl h.1]
  exact foldlM_literal h.2

theorem step_open (ws : List Word) : step { words := ws } quote = some { reading ws [] with mode := .quoted } := rfl

theorem foldlM_quoted_word {ws : List Word} {text : List UInt8} (h : quote ∉ text) :
    (quote :: (text ++ [quote])).foldlM step { words := ws } = some (reading ws text) := by
  rw [foldlM_cons, step_open, Option.bind_eq_bind, Option.bind_some, foldlM_append, foldlM_quoted h]
  rfl

theorem foldlM_append_space {text next : List UInt8} {s : State} {ws : List Word} {w : Word}
    (h : text.foldlM step s = some (reading ws w)) :
    (text ++ 32 :: next).foldlM step s = next.foldlM step { words := ws ++ [w] } := by
  rw [foldlM_append, h]
  rfl

theorem words_of_reading {text : List UInt8} {ws : List Word} {w : Word}
    (h : text.foldlM step {} = some (reading ws w)) : words text = some (ws ++ [w]) := by
  rw [words, h]
  rfl

end ShellWords
