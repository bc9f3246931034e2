import ApiTypes.CommandLine.Request
import ApiTypes.Delimiter
import ApiTypes.Text.Stream

/-!
# Outcomes

What a run of the program prints and writes. The command `generate` reads one document and writes
its typings to a file or to the standard output; what is noticed on the way and what is wrong goes
to the stream of messages.
-/

namespace ApiTypes.CommandLine

/-- What a run leaves behind. A failure that is no fault of the document ends the program. -/
structure Outcome where
  exitCode : Nat
  output : String
  messages : String
  failure : Option Failure
  written : Option (Path × String)

def Outcome.refused : Refusal → Outcome
  | .usage => ⟨2, "", "", none, none⟩
  | .noPath => ⟨1, "", "", some (.file .noPath), none⟩

/-! ## Messages -/

def message (s : String) : String := Text.withoutControls s

def messageLines (lines : List String) : String := String.join (lines.map (· ++ "\n"))

def noticeText (n : Notice) : String :=
  n.level.name ++ " openapi_typings." ++ n.topic.name ++ ": " ++ n.text

def shows (verbose : Bool) (n : Notice) : Bool :=
  (verbose || n.level == .warning) && n.fault?.isNone

def warnings (api : Api) (text : String) : List String :=
  ((Operation.duplicates api.operations).map Operation.Duplicate.message ++
    (Delimiter.problems text).map Delimiter.Problem.message).map fun s => message ("Warning: " ++ s)

/-! ## Runs -/

def Outcome.helped (page : String) : Outcome := ⟨0, message page, "", none, none⟩

def generate (look : Look) (r : Request) : Run (String × List String) := do
  let document ← Run.ofExcept (load look r.input r.format)
  let api ← Api.read document r.options.keep
  let text ← api.typings r.options.validators
  pure (text, warnings api text)

def failed (log : List String) (failure : Failure) : Outcome :=
  match failure with
  | .document fault =>
    ⟨1, "", messageLines (log ++ [message ("Error: " ++ fault.message)]), none, none⟩
  | failure => ⟨1, "", messageLines log, some failure, none⟩

def finished (look : Look) (log : List String) (output : Option Path) (text : String) : Outcome :=
  match output with
  | none => ⟨0, message text, messageLines log, none, none⟩
  | some path =>
    match writeFault? look path with
    | some fault => ⟨1, "", messageLines log, some (.file fault), none⟩
    | none =>
      ⟨0, "", messageLines (log ++ [message ("Typings saved to " ++ path.text)]), none,
        some (path, text)⟩

def execute (look : Look) (r : Request) : Outcome :=
  let result := (generate look r).run
  let log := (result.log.filter (shows r.verbose)).map noticeText
  match result.value with
  | .error failure => failed log failure
  | .ok (text, warnings) => finished look (log ++ warnings) r.output text

def run (help : Page → String) (look : Look) (environment : Environment) (args : List String) :
    Outcome :=
  match Invocation.ofList? args with
  | none => .refused .usage
  | some (.help page) => .helped (help page)
  | some (.generate a) =>
    match a.request look environment with
    | .error refusal => .refused refusal
    | .ok r => execute look r

end ApiTypes.CommandLine
