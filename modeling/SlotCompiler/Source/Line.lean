import SlotCompiler.Source.Blank
import SlotCompiler.Source.Token

/-!
# Lines of tokens

`lex` cuts a text at blanks and punctuators; `readLines` cuts a whole source at line feeds, numbers
the lines from 1 and drops comments. A carriage return is a blank, so both line endings read alike.
-/

namespace SlotCompiler

/-- One line of a source. The number serves diagnostics only. -/
structure Line where
  number : Nat
  tokens : List Token
  deriving DecidableEq, Repr

namespace Line

def isBlank (l : Line) : Bool := l.tokens.isEmpty

def first? (l : Line) : Option Token := l.tokens.head?

end Line

/-- The tokens on the lines, and one for each line. -/
def bulk : List Line → Nat
  | [] => 0
  | l :: ls => l.tokens.length + 1 + bulk ls

@[simp] theorem bulk_nil : bulk [] = 0 := rfl

@[simp] theorem bulk_cons (l : Line) (ls : List Line) :
    bulk (l :: ls) = l.tokens.length + 1 + bulk ls := rfl

/-- Puts a word in front of the tokens after it, unless the word is empty. -/
def flush (word : List Char) (ts : List Token) : List Token :=
  match word with
  | [] => ts
  | _ :: _ => String.ofList word :: ts

/-- The word that stands at the very front, and the tokens after it. -/
def lexWord : List Char → List Char × List Token
  | [] => ([], [])
  | c :: cs =>
    let (word, ts) := lexWord cs
    if isBlank c then ([], flush word ts)
    else if isPunctuator c then ([], String.singleton c :: flush word ts)
    else (c :: word, ts)

def lexChars (cs : List Char) : List Token :=
  flush (lexWord cs).1 (lexWord cs).2

/-- The tokens of a text, comments included. -/
def lex (text : String) : List Token := lexChars text.toList

/-- What stands before the first `#`. -/
def dropComment (ts : List Token) : List Token := ts.takeWhile (· ≠ "#")

/-- Cuts at line feeds; a last line feed opens no further line. -/
def splitLines : List Char → List (List Char)
  | [] => []
  | c :: cs =>
    if c = '\n' then [] :: splitLines cs
    else
      match splitLines cs with
      | [] => [[c]]
      | l :: ls => (c :: l) :: ls

def numberLines (n : Nat) : List (List Token) → List Line
  | [] => []
  | ts :: tss => ⟨n, ts⟩ :: numberLines (n + 1) tss

/-- The numbered lines of a source, without comments. -/
def readLines (source : String) : List Line :=
  numberLines 1 ((splitLines source.toList).map fun cs => dropComment (lexChars cs))

end SlotCompiler
