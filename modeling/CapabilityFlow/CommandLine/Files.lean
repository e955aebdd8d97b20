import CapabilityFlow.Table

/-!
# Files

Reading and writing files by their paths, wherever they are: `FileAccess` is what a command needs
of them, and `Directory.access` gives it for a directory that is held as a value.
-/

namespace CapabilityFlow.CommandLine

/-- Why a file cannot be read or written. -/
inductive FileFault where
  | notFound
  | notADirectory
  | isADirectory
  | other (text : String)
deriving DecidableEq, Repr

def FileFault.text : FileFault → String
  | notFound => "No such file or directory (os error 2)"
  | notADirectory => "Not a directory (os error 20)"
  | isADirectory => "Is a directory (os error 21)"
  | other text => text

/-- Access to files. -/
structure FileAccess (m : Type → Type) where
  read (path : String) : m (Except FileFault String)
  write (path contents : String) : m (Except FileFault Unit)

/-! ## Paths -/

/-- The names along a path. -/
def pathNames (path : String) : List String :=
  (path.splitOn "/").filter fun n => !n.isEmpty && n != "."

/-- The name of a file without its extension; a name that starts with its only point has none. -/
def stem (name : String) : String :=
  match (name.toList.reverse.dropWhile (· != '.')) with
  | [] => name
  | _ :: before => if before.isEmpty then name else String.ofList before.reverse

/-- The name of the file that a path leads to, without its extension. -/
def fileStem? (path : String) : Option String :=
  match (pathNames path).getLast? with
  | none | some ".." => none
  | some name => some (stem name)

/-! ## Directories -/

/-- The files in a directory by their paths from there. -/
structure Directory where
  files : Table String
deriving Repr, DecidableEq

namespace Directory

/-- The contents of the file at a place. -/
def file? (d : Directory) (names : List String) : Option String :=
  (d.files.find? fun f => pathNames f.1 = names).map (·.2)

/-- Whether a place is a directory: the directory itself, or one around some file. -/
def isDirectory (d : Directory) (names : List String) : Bool :=
  names.isEmpty || d.files.any fun f =>
    let inner := pathNames f.1
    names.isPrefixOf inner && names.length < inner.length

/-- Goes along names from a place; all but the last lead through directories. -/
def follow (d : Directory) (place : List String) : List String → Except FileFault (List String)
  | [] => .ok place
  | n :: rest =>
    if d.isDirectory place then
      if n = ".." then d.follow place.dropLast rest else d.follow (place ++ [n]) rest
    else if (d.file? place).isSome then .error .notADirectory
    else .error .notFound

/-- Whether a path can lead to a directory only. -/
def endsInDirectory (path : String) : Bool :=
  path.toList.getLast? = some '/' || (path.splitOn "/").getLast? = some "."

/-- The place that a path leads to. -/
def locate (d : Directory) (path : String) : Except FileFault (List String) := do
  if path.isEmpty || path.toList.head? = some '/' then throw .notFound
  let place ← d.follow [] (pathNames path)
  if endsInDirectory path && (d.file? place).isSome then throw .notADirectory
  pure place

def read (d : Directory) (path : String) : Except FileFault String := do
  let place ← d.locate path
  match d.file? place with
  | some contents => pure contents
  | none => throw (if d.isDirectory place then .isADirectory else .notFound)

/-- The directory after a file is written; the one around it has to be there. -/
def write (d : Directory) (path contents : String) : Except FileFault Directory := do
  let place ← d.locate path
  if d.isDirectory place || endsInDirectory path then throw .isADirectory
  let old := d.files.filter fun f => pathNames f.1 != place
  pure ⟨old ++ [("/".intercalate place, contents)]⟩

/-- Access to the files of a directory that is held as a value. -/
def access : FileAccess (StateM Directory) where
  read path := do pure ((← get).read path)
  write path contents := do
    match (← get).write path contents with
    | .ok d =>
      set d
      pure (.ok ())
    | .error fault => pure (.error fault)

end Directory

end CapabilityFlow.CommandLine
