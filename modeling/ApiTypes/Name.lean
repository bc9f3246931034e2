import ApiTypes.Text.Quoted
import ApiTypes.Text.Line
import ApiTypes.Text.Upper

/-!
# Names

How the names of a document become names of a module: `sanitize` keeps letters, digits and
underscores, `isBare` says which names need no quotes, `camelCase` joins the words of a phrase.
-/

namespace ApiTypes.Name

/-! ## Legal characters -/

def isWordChar (c : Char) : Bool := c.isAlphanum || c == '_'

def sanitize (s : String) : String := s.map fun c => if isWordChar c then c else '_'

/-- ASCII letters and the four letters that differ from one only by case. -/
def isLetter (c : Char) : Bool :=
  c.isAlpha || c == '\u017F' || c == '\u212A' || c == '\u0130' || c == '\u0131'

def isBareStart (c : Char) : Bool := isLetter c || c == '$' || c == '_'

def isBarePart (c : Char) : Bool := isBareStart c || c.isDigit

def isBare (s : String) : Bool :=
  match s.toList with
  | [] => false
  | c :: cs => isBareStart c && cs.all isBarePart

def propertyKey (s : String) : String := if isBare s then s else Text.quoted s

/-! ## Words and case -/

/-- Whether a letter or digit `c` and the character `d` after it belong to one word, given what
follows `d`. The last capital before a small letter starts a word of its own. -/
def joins (c d : Char) (next : Option Char) : Bool :=
  if c.isDigit then d.isDigit
  else if c.isLower then d.isLower
  else d.isLower || (d.isUpper && !(next.any Char.isLower))

/-- The words of a phrase: runs of digits, of small letters with at most one capital before them,
or of capitals. -/
def words : List Char → List (List Char)
  | [] => []
  | c :: cs =>
    if !c.isAlphanum then words cs
    else match cs, words cs with
      | d :: ds, w :: ws => if joins c d ds.head? then (c :: w) :: ws else [c] :: w :: ws
      | _, ws => [c] :: ws

def capitalizeWord : List Char → List Char
  | [] => []
  | c :: cs => c.toUpper :: cs.map Char.toLower

def camelCase (s : String) : String :=
  match words s.toList with
  | [] => ""
  | w :: ws => String.ofList (w.map Char.toLower ++ ws.flatMap capitalizeWord)

def capitalize (s : String) : String :=
  match s.toList with
  | [] => ""
  | c :: cs => String.ofList (Text.upper c ++ cs)

/-! ## References -/

/-- The text after the last slash, or `any` when it is empty. -/
def lastSegment (s : String) : String :=
  match (Text.pieces (· == '/') s.toList).getLast? with
  | none | some [] => "any"
  | some cs => String.ofList cs

end ApiTypes.Name
