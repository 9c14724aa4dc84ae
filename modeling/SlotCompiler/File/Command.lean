import SlotCompiler.File.Path
import SlotCompiler.File.Basic
import SlotCompiler.Listing

/-!
# Compiling files

A source is read, compiled, and its listing written beside it, also when the source is rejected. Only
a wrong use of the command or a fault of the file system is a failure.
-/

namespace SlotCompiler

inductive Failure
  | usage (program : String)
  | unreadable (path : String) (fault : Fault)
  | unwritable (path : String) (fault : Fault)
  deriving DecidableEq, Repr

def Failure.message : Failure → String
  | .usage program => "usage: " ++ program ++ " <input.my>"
  | .unreadable path fault => "failed to read " ++ path ++ ": " ++ fault.message
  | .unwritable path fault => "failed to write " ++ path ++ ": " ++ fault.message

structure Report where
  output : String
  verdict : Verdict
  deriving DecidableEq, Repr

section
variable {m : Type → Type} [Monad m] [Files m]

def compileFile (input : String) : m (Except Failure Report) := do
  match ← Files.read input with
  | .error fault => return .error (.unreadable input fault)
  | .ok source =>
    let listing := compile source
    let output := outputPath input
    match ← Files.write output listing.text with
    | .error fault => return .error (.unwritable output fault)
    | .ok () => return .ok ⟨output, listing.verdict⟩

/-- What a finished command leaves behind. Nothing goes to the standard output. -/
structure Exit where
  code : UInt32
  stderr : String
  deriving DecidableEq, Repr

def Exit.failed (f : Failure) : Exit := ⟨1, f.message ++ "\n"⟩

def runCommand (program : String) (args : List String) : m Exit := do
  match args with
  | [input] =>
    match ← compileFile input with
    | .error f => return .failed f
    | .ok _ => return ⟨0, ""⟩
  | _ => return .failed (.usage program)

end

def programName : String := "mylang2ir"

end SlotCompiler
