import ApiTypes.Text.Line
import ApiTypes.Yaml.Cursor
import ApiTypes.Yaml.Time

/-!
# Tags

A tag tells what a node stands for. A plain text without one is given a tag by its form.
-/

namespace ApiTypes.Yaml

inductive Tag
  | null
  | bool
  | int
  | float
  | bytes
  | time
  | text
  | seq
  | map
  | set
  /-- A sequence of mappings with one entry each. -/
  | pairs
  /-- The key of entries to be taken over from other mappings. -/
  | merge
  /-- The key of the text that a mapping stands for. -/
  | value
  | unknown
  deriving Repr, DecidableEq

namespace Tag

def standard : List (String × Tag) :=
  [("null", null), ("bool", bool), ("int", int), ("float", float), ("binary", bytes),
    ("timestamp", time), ("str", text), ("seq", seq), ("map", map), ("set", set), ("omap", pairs),
    ("pairs", pairs), ("merge", merge), ("value", value)]

def standardStart : String := "tag:yaml.org,2002:"

def ofUri (uri : String) : Tag :=
  let start := standardStart.toList
  if start.isPrefixOf uri.toList then
    (standard.lookup (String.ofList (uri.toList.drop start.length))).getD unknown
  else unknown

/-! ## Forms of plain texts -/

def words : List (String × Tag) :=
  (["yes", "Yes", "YES", "no", "No", "NO", "true", "True", "TRUE", "false", "False", "FALSE",
      "on", "On", "ON", "off", "Off", "OFF"].map fun w => (w, bool)) ++
    ["", "~", "null", "Null", "NULL"].map (fun w => (w, null)) ++
    [("<<", merge), ("=", value), ("!", unknown), ("&", unknown), ("*", unknown)]

def isDigitOrLine (c : Char) : Bool := c.isDigit || c == '_'

def isSign (c : Char) : Bool := c == '-' || c == '+'

def unsigned : List Char → List Char
  | [] => []
  | c :: cs => if isSign c then cs else c :: cs

def isSixties (cs : List Char) : Bool :=
  match cs with
  | [c] => c.isDigit
  | [c, d] => '0' ≤ c && c ≤ '5' && d.isDigit
  | _ => false

def isDigits : List Char → Bool
  | [] => false
  | c :: cs => c.isDigit && cs.all isDigitOrLine

def isCount : List Char → Bool
  | [] => false
  | c :: cs => '1' ≤ c && c ≤ '9' && cs.all isDigitOrLine

def isInt (cs : List Char) : Bool :=
  match unsigned cs with
  | ['0'] => true
  | '0' :: 'b' :: ds => !ds.isEmpty && ds.all fun c => c == '0' || c == '1' || c == '_'
  | '0' :: 'x' :: ds =>
    !ds.isEmpty && ds.all fun c => isDigitOrLine c || ('a' ≤ c && c ≤ 'f') || ('A' ≤ c && c ≤ 'F')
  | '0' :: ds => ds.all fun c => ('0' ≤ c && c ≤ '7') || c == '_'
  | ds =>
    match Text.pieces (· == ':') ds with
    | first :: rest => isCount first && rest.all isSixties
    | [] => false

def isExponent : List Char → Bool
  | [] => true
  | e :: sign :: ds => (e == 'e' || e == 'E') && isSign sign && !ds.isEmpty && ds.all Char.isDigit
  | _ => false

def isFraction (cs : List Char) : Bool := isExponent (cs.dropWhile isDigitOrLine)

def isFloat (cs : List Char) : Bool :=
  let body := unsigned cs
  let isSpecial := [".inf", ".Inf", ".INF"].contains (String.ofList body) ||
    [".nan", ".NaN", ".NAN"].contains (String.ofList cs)
  let startsWithPoint := match cs with
    | '.' :: d :: ds => d.isDigit && isFraction ds
    | _ => false
  let (whole, behind) := (body.takeWhile (· != '.'), body.dropWhile (· != '.'))
  let hasPoint := match behind with
    | _ :: fraction =>
      match Text.pieces (· == ':') whole with
      | [ds] => isDigits ds && isFraction fraction
      | first :: rest => isDigits first && rest.all isSixties && fraction.all isDigitOrLine
      | [] => false
    | [] => false
  isSpecial || startsWithPoint || hasPoint

/-- The tag that the form of a plain text gives it. A line feed at its end does not count, unless it
is all there is. -/
def ofPlain (s : String) : Tag :=
  let cs := if s == "\n" then s.toList else Text.withoutFinalLineFeed s.toList
  match words.lookup (String.ofList cs) with
  | some tag => tag
  | none =>
    if isFloat cs then float
    else if isInt cs then int
    else if (Time.ofText? cs).any (·.isPlain) then time
    else text

end Tag

end ApiTypes.Yaml
