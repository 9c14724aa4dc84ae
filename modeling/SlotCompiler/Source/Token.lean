/-!
# Tokens

A token is its text, and what kind of token it is (keyword, name, number, operator) is read off the
text whenever it matters. A token that starts like a number is a number or malformed; it is never a
name.
-/

namespace SlotCompiler

abbrev Token := String

/-- The characters that are tokens by themselves. -/
def punctuators : List Char :=
  ['+', '-', '*', '/', '(', ')', '=', '{', '}', '#', ',']

def isPunctuator (c : Char) : Bool := punctuators.contains c

abbrev openBrace : Token := "\x7b"

abbrev closeBrace : Token := "\x7d"

/-- The words that never name a variable. -/
def keywords : List Token := ["if", "while", "print", "choose"]

def isNameStart (c : Char) : Bool := c.isAlpha || c = '_'

def isNameChar (c : Char) : Bool := c.isAlphanum || c = '_'

/-- The value of a non-empty run of decimal digits. -/
def digits? (cs : List Char) : Option Nat :=
  if cs ≠ [] ∧ cs.all Char.isDigit then some (Nat.ofDigitChars 10 cs 0) else none

/-- The integers that fit in 32 bits. -/
def int32? (i : Int) : Option Int32 :=
  if -2147483648 ≤ i ∧ i ≤ 2147483647 then some (Int32.ofInt i) else none

namespace Token

def isKeyword (t : Token) : Bool := keywords.contains t

/-- A letter or underscore, then letters, digits and underscores (all ASCII), and no keyword. -/
def isName (t : Token) : Bool :=
  match t.toList with
  | [] => false
  | c :: cs => isNameStart c && cs.all isNameChar && !t.isKeyword

/-- Starts like a number: a digit or a minus sign. -/
def isNumeric (t : Token) : Bool :=
  match t.toList with
  | [] => false
  | c :: _ => c.isDigit || c = '-'

/-- At most one sign, then digits, with a value that fits in 32 bits. -/
def number? (t : Token) : Option Int32 :=
  match t.toList with
  | '-' :: ds => (digits? ds).bind fun n => int32? (-n)
  | '+' :: ds => (digits? ds).bind fun n => int32? n
  | ds => (digits? ds).bind fun n => int32? n

end Token

end SlotCompiler
