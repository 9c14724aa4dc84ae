/-!
# Reading and writing files

What can go wrong, with the operating system's words for it, and what a place that holds files has to
offer.
-/

namespace SlotCompiler

inductive Fault
  | noEntry
  | notDirectory
  | isDirectory
  | notText
  | other (text : String)
  deriving DecidableEq, Repr

def Fault.message : Fault → String
  | .noEntry => "No such file or directory (os error 2)"
  | .notDirectory => "Not a directory (os error 20)"
  | .isDirectory => "Is a directory (os error 21)"
  | .notText => "stream did not contain valid UTF-8"
  | .other text => text

/-- Where files are read and written. -/
class Files (m : Type → Type) where
  read : String → m (Except Fault String)
  write : String → String → m (Except Fault Unit)

end SlotCompiler
