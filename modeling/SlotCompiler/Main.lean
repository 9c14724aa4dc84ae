import SlotCompiler.File.Command

/-! # The command line -/

namespace SlotCompiler

/-- The fault behind an error; some calls give the number of the error negated. -/
def Fault.ofError : IO.Error → Fault
  | .noFileOrDirectory .. => .noEntry
  | .permissionDenied .. => .other "Permission denied (os error 13)"
  | .inappropriateType _ code details =>
    if code = 20 ∨ code = -20 then .notDirectory
    else if code = 21 ∨ code = -21 then .isDirectory
    else .other details
  | e => .other (toString e)

instance : Files IO where
  read path := do
    try
      match String.fromUTF8? (← IO.FS.readBinFile path) with
      | some text => return .ok text
      | none => return .error .notText
    catch e => return .error (.ofError e)
  write path text := do
    try
      IO.FS.writeFile path text
      return .ok ()
    catch e => return .error (.ofError e)

end SlotCompiler

open SlotCompiler in
def main (args : List String) : IO UInt32 := do
  let exit ← runCommand programName args
  IO.eprint exit.stderr
  return exit.code
