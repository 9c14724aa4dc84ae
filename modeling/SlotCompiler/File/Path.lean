/-!
# Paths

A path is cut into components at its separators. An extension is looked for from the end, so names,
stems and extensions are held backwards here. The old extension is taken off before the new one is
set; a name that is left as `..` by the first step names a directory, and then nothing is set.
-/

namespace SlotCompiler

namespace Path

/-- The text before the first separator, and the texts after each separator. -/
def splitComponents : List Char → List Char × List (List Char)
  | [] => ([], [])
  | c :: cs =>
    let (name, others) := splitComponents cs
    if c = '/' then ([], name :: others) else (c :: name, others)

def components (path : List Char) : List (List Char) :=
  let (name, others) := splitComponents path
  name :: others

/-- Drops the separators and the components `.` at the end of a path (backwards). -/
def trim : List Char → List Char
  | '/' :: cs => trim cs
  | '.' :: '/' :: cs => trim cs
  | cs => cs

/-- The last component (backwards). -/
def lastName (path : List Char) : List Char := (trim path.reverse).takeWhile (· ≠ '/')

/-- What stands before the last component. -/
def parent (path : List Char) : List Char := ((trim path.reverse).dropWhile (· ≠ '/')).reverse

/-- Names of files, other than the names for a directory itself and the one above it. -/
def isFileName (name : List Char) : Bool := name ≠ [] && name ≠ ['.'] && name ≠ ['.', '.']

/-- Extension and stem of a name (all backwards). A dot in front starts no extension. -/
def cutExtension (name : List Char) : Option (List Char) × List Char :=
  match name.dropWhile (· ≠ '.') with
  | _ :: c :: stem => (some (name.takeWhile (· ≠ '.')), c :: stem)
  | _ => (none, name)

def extension? (path : List Char) : Option (List Char) :=
  if isFileName (lastName path) then (cutExtension (lastName path)).1 else none

def setExtension (ext path : List Char) : List Char :=
  if isFileName (lastName path) then
    parent path ++ (cutExtension (lastName path)).2.reverse ++ '.' :: ext
  else path

def withExtension (ext path : List Char) : List Char :=
  match extension? path with
  | none => setExtension ext path
  | some old => setExtension ext (path.take (path.length - old.length))

end Path

/-- The path of the listing for a source. -/
def outputPath (input : String) : String :=
  String.ofList (Path.withExtension ['l', 'l'] input.toList)

end SlotCompiler
