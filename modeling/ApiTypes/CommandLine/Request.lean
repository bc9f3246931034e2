import ApiTypes.CommandLine.Arguments
import ApiTypes.Load
import ApiTypes.Typings

/-!
# Requests

Arguments become a request for typings once the paths they name are looked at. Switches may also be
set by the environment.
-/

namespace ApiTypes.CommandLine

structure Environment where
  keep : Option String
  validators : Option String

structure Request where
  verbose : Bool
  input : Path
  output : Option Path
  options : Options
  format : Option Format
  deriving Repr, DecidableEq

inductive Refusal
  | usage
  | noPath
  deriving Repr, DecidableEq

/-! ## Values of options -/

def readSwitch (word : String) : Except Refusal Bool :=
  let w := (String.ofList (Text.trim word.toList)).map Char.toLower
  if ["1", "true", "t", "yes", "y", "on"].contains w then .ok true
  else if ["", "0", "false", "f", "no", "n", "off"].contains w then .ok false
  else .error .usage

def switchValue (g : Given) (s : Switch) (environment : Option String) : Except Refusal Bool :=
  if g.switches.contains s then .ok true else readSwitch (environment.getD "")

def readFormat : String → Except Refusal (Option Format)
  | "auto" => .ok none
  | "yaml" => .ok (some .yaml)
  | "json" => .ok (some .json)
  | _ => .error .usage

/-! ## Requests of arguments -/

def checkSetting (look : Look) (s : Setting) (value : String) : Except Refusal Unit :=
  match s with
  | .input =>
    match look value with
    | .file _ => .ok ()
    | .noPath => .error .noPath
    | _ => .error .usage
  | .output =>
    match look value with
    | .directory => .error .usage
    | .noPath => .error .noPath
    | _ => .ok ()
  | .format => (readFormat value).map fun _ => ()

/-- The request of some arguments. Settings are looked at in the order in which they are given, and
what is given before what is not. -/
def Arguments.request (a : Arguments) (look : Look) (environment : Environment) :
    Except Refusal Request := do
  let values := a.given.values
  values.forM fun (setting, value) => checkSetting look setting value
  let some input := values.get? .input | throw .usage
  let keep ← switchValue a.given .keep environment.keep
  let validators ← switchValue a.given .validators environment.validators
  let format ← readFormat ((values.get? .format).getD "auto")
  if !a.rest.isEmpty then throw .usage
  pure { format
         verbose := a.verbose
         input := .ofString input
         output := (values.get? .output).map .ofString
         options := ⟨keep, validators⟩ }

def Arguments.paths (a : Arguments) : List String :=
  a.given.values.flatMap fun (setting, value) =>
    let path := Path.ofString value
    match setting with
    | .input => [value, path.text]
    | .output =>
      value :: path.text :: path.parent.text :: path.ancestors.map (·.straight.text)
    | .format => []

end ApiTypes.CommandLine
