import ApiTypes.Files.Tree
import ApiTypes.Json.Reader
import ApiTypes.Text.Blank
import ApiTypes.Yaml.Reader

/-!
# Loading

A document is a file with one mapping, in JSON or YAML. Which of the two is told by the user, by the
ending of the path, or by the first character of the text.
-/

namespace ApiTypes

inductive Format
  | json
  | yaml
  deriving Repr, DecidableEq

namespace Format

def name : Format → String
  | json => "json"
  | yaml => "yaml"

def ofEnding? (ending : String) : Option Format :=
  let e := ending.map Char.toLower
  if e == ".yaml" || e == ".yml" then some yaml else if e == ".json" then some json else none

def ofText (cs : List Char) : Format :=
  match (Text.trimStart cs).head? with
  | some c => if c == '\x7b' || c == '[' then json else yaml
  | none => yaml

def detect (look : Look) (path : Path) : Except Failure Format :=
  match ofEnding? path.ending with
  | some format => .ok format
  | none => (readText look path).map ofText

end Format

def readJson (path : Path) (cs : List Char) : Except Failure Document :=
  match Json.read (some maxDigits) cs with
  | .ok v => .ok (.ofValue v)
  | .error .tooLong => .error .tooLong
  | .error (.syntaxError reason place) =>
    .error (.document (.badJson path.text (reason.message ++ ": " ++ Json.placeText cs place)))

def readYaml (path : Path) (cs : List Char) : Except Failure Document :=
  match Yaml.read cs with
  | .ok d => .ok d
  | .error .malformed => .error (.document (.badYaml path.text))
  | .error (.scalar fault) => .error (.scalar fault)

def load (look : Look) (path : Path) (format : Option Format) : Except Failure Document := do
  match look path.text with
  | .file _ => pure ()
  | .tooLong => throw (.file .tooLong)
  | _ => throw (.document (.missing path.text))
  let format ← match format with
    | some f => pure f
    | none => Format.detect look path
  let cs ← readText look path
  let d ← match format with
    | .json => readJson path cs
    | .yaml => readYaml path cs
  if d.entries?.isNone then throw (.document (.noMapping path.text))
  return d

end ApiTypes
