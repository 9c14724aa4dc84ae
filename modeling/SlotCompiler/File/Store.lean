import SlotCompiler.File.Basic
import SlotCompiler.File.Path

/-!
# Stores

A store holds the files and directories that are known to a process with a working directory. A path
is followed one component at a time, and every component but the last has to be a directory. Nothing
is known above the working directory but that there are directories.
-/

namespace SlotCompiler

inductive Entry
  | file (content : ByteArray)
  | directory

inductive Base
  | above (levels : Nat) -- this many levels above the working directory
  | root
  deriving DecidableEq, Repr

/-- Where a path leads: from a base down along names, the innermost one first. -/
structure Place where
  base : Base
  names : List String
  deriving DecidableEq, Repr

namespace Place

def start (path : List Char) : Place := ⟨if path.head? = some '/' then .root else .above 0, []⟩

def parent : Place → Place
  | ⟨base, _ :: names⟩ => ⟨base, names⟩
  | ⟨.above levels, []⟩ => ⟨.above (levels + 1), []⟩
  | ⟨.root, []⟩ => ⟨.root, []⟩

def child (p : Place) (name : String) : Place := { p with names := name :: p.names }

end Place

/-- Later entries for a place stand in front of earlier ones. -/
structure Store where
  entries : List (Place × Entry) := []

namespace Store

def entry? (s : Store) (p : Place) : Option Entry :=
  match p.names with
  | [] => some .directory
  | _ :: _ => s.entries.lookup p

def put (s : Store) (p : Place) (e : Entry) : Store := ⟨(p, e) :: s.entries⟩

/-- One component further, which needs a directory to start from. -/
def step (s : Store) (p : Place) (component : List Char) : Except Fault Place :=
  match s.entry? p with
  | none => .error .noEntry
  | some (.file _) => .error .notDirectory
  | some .directory =>
    if component = [] ∨ component = ['.'] then .ok p
    else if component = ['.', '.'] then .ok p.parent
    else .ok (p.child (String.ofList component))

def resolve (s : Store) (path : String) : Except Fault Place :=
  if path = "" then .error .noEntry
  else (Path.components path.toList).foldlM s.step (.start path.toList)

def read (s : Store) (path : String) : Except Fault String :=
  match s.resolve path with
  | .error f => .error f
  | .ok p =>
    match s.entry? p with
    | none => .error .noEntry
    | some .directory => .error .isDirectory
    | some (.file content) =>
      match String.fromUTF8? content with
      | some text => .ok text
      | none => .error .notText

/-- Replaces a file, or makes a new one in a directory that is there. -/
def write (s : Store) (path : String) (content : ByteArray) : Except Fault Store :=
  match s.resolve path with
  | .error f => .error f
  | .ok p =>
    match s.entry? p with
    | some .directory => .error .isDirectory
    | _ => .ok (s.put p (.file content))

def ensureDirectory (s : Store) (p : Place) : Store :=
  match s.entry? p with
  | none => s.put p .directory
  | some _ => s

/-- Follows the components, and makes the directories that are missing on the way. -/
def makeDirectories (s : Store) (p : Place) : List (List Char) → Except Fault Store
  | [] => .ok s
  | component :: components =>
    match s.step p component with
    | .error f => .error f
    | .ok q => (s.ensureDirectory q).makeDirectories q components

def addDirectory (s : Store) (path : String) : Except Fault Store :=
  s.makeDirectories (.start path.toList) (Path.components path.toList)

/-- Writes a file, and makes the directories that are missing on the way to it. -/
def addFile (s : Store) (path : String) (content : ByteArray) : Except Fault Store := do
  let s ← s.makeDirectories (.start path.toList) (Path.components path.toList).dropLast
  s.write path content

end Store

instance : Files (StateM Store) where
  read path := do return (← get).read path
  write path text := do
    match (← get).write path text.toUTF8 with
    | .error f => return .error f
    | .ok s => set s; return .ok ()

end SlotCompiler
