import ApiTypes.Files.Path
import ApiTypes.Failure

/-!
# Files

What the program knows of files: what stands at a path, and what writing a file at a path would
do. A `FileTree` answers this for files that are given.
-/

namespace ApiTypes

inductive Found
  | missing
  | blocked
  | directory
  | file (bytes : List UInt8)
  | tooLong
  | noPath

abbrev Look := String → Found

/-- Files by the names of the straight paths that lead to them. Around the directory that they are
in there are only directories, of which nothing else is known. -/
structure FileTree where
  files : List (List String × List UInt8)

namespace FileTree

def file? (t : FileTree) (names : List String) : Option (List UInt8) :=
  (t.files.reverse.find? fun f => f.1 == names).map (·.2)

def hasDirectory (t : FileTree) (names : List String) : Bool :=
  t.files.any fun f => names.isPrefixOf f.1 && names != f.1

def standingAt (t : FileTree) (p : Path) : Found :=
  if p.isAround then .directory
  else if p.isAbsolute then .missing
  else match t.file? p.names with
    | some bytes => .file bytes
    | none => if t.hasDirectory p.names then .directory else .missing

def follow (t : FileTree) (here : Path) : List String → Found
  | [] => .directory
  | name :: rest =>
    if Path.isLongName name then .tooLong
    else
      let there := here.step name
      match t.standingAt there with
      | .directory => follow t there rest
      | .file bytes => if rest.isEmpty then .file bytes else .blocked
      | found => found

def look (t : FileTree) : Look := fun path =>
  if path.toList.contains '\x00' then .noPath
  else if path.isEmpty then .missing
  else if Path.isLongText path then .tooLong
  else t.follow ⟨Path.rootOf path, []⟩ (Path.split path)

end FileTree

def readBytes (look : Look) (path : Path) : Except Failure (List UInt8) :=
  match look path.text with
  | .file bytes => .ok bytes
  | .directory => .error (.file .isDirectory)
  | .blocked => .error (.file .notDirectory)
  | .missing => .error (.file .notFound)
  | .tooLong => .error (.file .tooLong)
  | .noPath => .error (.file .noPath)

def readText (look : Look) (path : Path) : Except Failure (List Char) := do
  match Text.decodeUtf8 (← readBytes look path) with
  | .ok cs => return Text.unifyLineFeeds cs
  | .error fault => throw (.undecodable fault)

/-! ## Writing -/

def makeFault? (look : Look) (path : Path) : Option FileFault :=
  if path.names.getLast?.any Path.isLongName then some .tooLong
  else match look path.straight.text with
    | .file _ => some .exists
    | _ => none

/-- Why there is no directory at a path even after those that are missing on the way are made, the
outermost first. -/
def directoryFault? (look : Look) (path : Path) : Option FileFault :=
  match look path.text with
  | .directory => none
  | .file _ => some .exists
  | .blocked => some .notDirectory
  | .tooLong => some .tooLong
  | .noPath => some .noPath
  | .missing => path.ancestors.findSome? (makeFault? look)

/-- Why a file cannot be written at a path. Directories that are missing on the way are made. -/
def writeFault? (look : Look) (path : Path) : Option FileFault :=
  let place := path.straight
  let isMade := path.parent.ancestors.any fun p => p.straight == place
  match directoryFault? look path.parent with
  | some fault => some fault
  | none =>
    if Path.isLongText path.text || path.names.getLast?.any Path.isLongName then some .tooLong
    else if isMade then some .isDirectory
    else match look place.text with
      | .directory => some .isDirectory
      | _ => none

end ApiTypes
