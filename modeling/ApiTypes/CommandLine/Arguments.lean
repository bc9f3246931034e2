import ApiTypes.Table

/-!
# Arguments

The command `generate` has options. They may be given in any order and more than once, in which case
the last one counts. `Invocation.ofList?` reads them without a look at any file.
-/

namespace ApiTypes.CommandLine

/-! ## Options -/

inductive Switch
  | help
  | verbose
  | keep
  | validators
  deriving Repr, DecidableEq

inductive Setting
  | input
  | output
  | format
  deriving Repr, DecidableEq

inductive Action
  | set (s : Switch)
  | take (s : Setting)
  deriving Repr, DecidableEq

/-- The options of a command: a letter and a word for each. Where they are `mixed`, options may also
stand behind other arguments. -/
structure Grammar where
  mixed : Bool
  letters : List (Char × Action)
  words : List (String × Action)

def programGrammar : Grammar :=
  { mixed := false
    letters := [('v', .set .verbose)]
    words := [("--verbose", .set .verbose), ("--help", .set .help)] }

def generateGrammar : Grammar :=
  { mixed := true
    letters := [('i', .take .input), ('o', .take .output), ('k', .set .keep),
      ('z', .set .validators)]
    words := [("--input", .take .input), ("--output", .take .output), ("--keep", .set .keep),
      ("--zod", .set .validators), ("--format", .take .format), ("--help", .set .help)] }

/-! ## Reading options -/

/-- What has been given; of the settings the last one comes first. -/
structure Given where
  switches : List Switch
  settings : List (Setting × String)

def Given.none : Given := ⟨[], []⟩

def Given.set (g : Given) (s : Switch) : Given := { g with switches := s :: g.switches }

def Given.take (g : Given) (s : Setting) (v : String) : Given :=
  { g with settings := (s, v) :: g.settings }

def Given.values (g : Given) : Table Setting String := Table.ofList g.settings.reverse

/-- What the letters behind one dash ask for: switches, and possibly a setting at the end with its
value, if that stands directly behind it. -/
def readLetters (grammar : Grammar) (g : Given) :
    List Char → Option (Given × Option (Setting × Option String))
  | [] => some (g, none)
  | c :: cs =>
    match grammar.letters.lookup c with
    | some (.set s) => readLetters grammar (g.set s) cs
    | some (.take s) =>
      some (g, some (s, if cs.isEmpty then none else some (String.ofList cs)))
    | none => none

def readWord (grammar : Grammar) (g : Given) (arg : List Char) :
    Option (Given × Option (Setting × Option String)) :=
  let word := String.ofList (arg.takeWhile (· != '='))
  let value := match arg.dropWhile (· != '=') with
    | _ :: v => some (String.ofList v)
    | [] => none
  match grammar.words.lookup word, value with
  | some (.set s), none => some (g.set s, none)
  | some (.take s), v => some (g, some (s, v))
  | _, _ => none

def readOption (grammar : Grammar) (g : Given) (arg : String) :
    Option (Given × Option (Setting × Option String)) :=
  match arg.toList with
  | '-' :: '-' :: _ => readWord grammar g arg.toList
  | _ :: letters => readLetters grammar g letters
  | [] => none

def isOption (arg : String) : Bool := arg.toList.head? == some '-' && 1 < arg.length

def readOptions (grammar : Grammar) (g : Given) : List String → Option (Given × List String)
  | [] => some (g, [])
  | arg :: args =>
    if arg == "--" then some (g, args)
    else if !isOption arg then
      if grammar.mixed then (readOptions grammar g args).map fun (g, others) => (g, arg :: others)
      else some (g, arg :: args)
    else match readOption grammar g arg, args with
      | none, _ => none
      | some (g, none), args => readOptions grammar g args
      | some (g, some (s, some v)), args => readOptions grammar (g.take s v) args
      | some (g, some (s, none)), v :: args => readOptions grammar (g.take s v) args
      | some (_, some (_, none)), [] => none

/-! ## Arguments -/

structure Arguments where
  verbose : Bool
  given : Given
  rest : List String

inductive Page
  | program
  | generate
  deriving Repr, DecidableEq

inductive Invocation
  | help (page : Page)
  | generate (arguments : Arguments)

/-- What some arguments ask for. Help counts before all that is given beside it, but not before an option
that cannot be read. -/
def Invocation.ofList? (args : List String) : Option Invocation := do
  let (program, args) ← readOptions programGrammar .none args
  if program.switches.contains .help then return .help .program
  let command :: args := args | none
  guard (command == "generate")
  let (given, rest) ← readOptions generateGrammar .none args
  if given.switches.contains .help then return .help .generate
  return .generate ⟨program.switches.contains .verbose, given, rest⟩

end ApiTypes.CommandLine
