import ApiTypes.Text.Line

/-!
# Paths

A path is a list of names between slashes. Empty names and single dots say nothing and are left
out. Two dots lead back to the directory around; `straight` takes them away where every name on the
way is a directory.
-/

namespace ApiTypes

/-- The root is empty in a path that starts from the working directory. -/
structure Path where
  root : String
  names : List String
  deriving Repr, DecidableEq

namespace Path

def split (s : String) : List String :=
  (Text.pieces (· == '/') s.toList).map String.ofList

/-- The slashes that a path starts with: two are a root of their own, more count as one. -/
def rootOf (s : String) : String :=
  match (s.toList.takeWhile (· == '/')).length with
  | 0 => ""
  | 2 => "//"
  | _ => "/"

def ofString (s : String) : Path :=
  ⟨rootOf s, (split s).filter fun name => name != "" && name != "."⟩

def isAbsolute (p : Path) : Bool := !p.root.isEmpty

def text (p : Path) : String :=
  let text := p.root ++ String.intercalate "/" p.names
  if text.isEmpty then "." else text

def parent (p : Path) : Path := { p with names := p.names.dropLast }

def ancestors (p : Path) : List Path :=
  (List.range (p.names.length + 1)).map fun n => { p with names := p.names.take n }

def ending (p : Path) : String :=
  let name := (p.names.getLast?.getD "").toList.reverse
  let behind := name.takeWhile (· != '.')
  let before := name.drop (behind.length + 1)
  if behind.isEmpty || before.isEmpty then ""
  else String.ofList ('.' :: behind.reverse)

/-! ## Directories around -/

def step (p : Path) (name : String) : Path :=
  if name == "" || name == "." then p
  else if name == ".." && p.names.getLast?.any (· != "..") then p.parent
  else if name == ".." && p.isAbsolute then p
  else { p with names := p.names ++ [name] }

def straight (p : Path) : Path := p.names.foldl step ⟨p.root, []⟩

def isAround (p : Path) : Bool := p.names.all (· == "..")

/-! ## Limits -/

def maxName : Nat := 255

def maxText : Nat := 4095

def isLongName (name : String) : Bool := maxName < name.utf8ByteSize

def isLongText (text : String) : Bool := maxText < text.utf8ByteSize

end Path

end ApiTypes
