/-!
# Rejected sources

A rejected source is blamed on one line. The message names the line alone; the cause is kept for
those who reason about why a line was blamed.
-/

namespace SlotCompiler

inductive Cause
  | short -- a line of one or two tokens
  | parentheses -- more of one parenthesis than of the other
  | statement -- a line of no known form
  | group -- a parenthesised group that is missing or not closed
  | expression -- tokens that form no expression
  | number -- a number that is malformed or does not fit in 32 bits
  | name -- a word that names no variable
  | arguments -- a choice without exactly four arguments
  | zeroDivisor -- a division by the literal zero
  | opener -- a header whose block does not open
  | strayBrace -- an opening brace that belongs to no header
  | unclosed -- a block that is still open when the lines end
  deriving DecidableEq, Repr

structure SyntaxError where
  line : Nat
  cause : Cause
  deriving DecidableEq, Repr

def blameText (line : Nat) : String := "Line " ++ line.repr ++ ": syntax error"

def SyntaxError.message (e : SyntaxError) : String := blameText e.line

end SlotCompiler
