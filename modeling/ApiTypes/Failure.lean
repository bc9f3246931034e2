import ApiTypes.Log
import ApiTypes.Text.Utf8
import ApiTypes.Yaml.Fault

/-!
# Failures

Why no typings can be written. The first ones are faults of the document and are told to the user;
the others end the program.
-/

namespace ApiTypes

inductive DocumentFault
  | missing (path : String)
  | badJson (path details : String)
  | badYaml (path : String)
  | noMapping (path : String)
  | shape
  | pathsShape
  | componentsShape
  | schemasShape
  deriving Repr, DecidableEq

def DocumentFault.message : DocumentFault → String
  | .missing path => "No such file: " ++ path
  | .badJson path details => "Could not parse " ++ path ++ " as json: " ++ details
  | .badYaml path => "Could not parse " ++ path ++ " as yaml: no single well-formed document"
  | .noMapping path => path ++ " does not contain a mapping at the top level"
  | .shape => "OpenAPI document must be a mapping"
  | .pathsShape => "'paths' must be a mapping of path -> path item"
  | .componentsShape => "'components' must be a mapping"
  | .schemasShape => "'components.schemas' must be a mapping of name -> schema"

inductive FileFault
  | notFound
  | isDirectory
  | notDirectory
  | exists
  | tooLong
  | noPath
  deriving Repr, DecidableEq

inductive Failure
  | document (fault : DocumentFault)
  | undecodable (fault : Text.Utf8Fault)
  | file (fault : FileFault)
  | tooLong
  | scalar (fault : Yaml.ScalarFault)
  /-- A collection of this kind stands where values are looked up. -/
  | unhashable (kind : String)
  | noMapping
  | unwritable (fault : WriteFault)
  deriving Repr, DecidableEq

def FileFault.message : FileFault → String
  | .notFound => "no such file"
  | .isDirectory => "a directory stands where a file is needed"
  | .notDirectory => "a file stands where a directory is needed"
  | .exists => "a file is in the way of a directory"
  | .tooLong => "a path is too long"
  | .noPath => "a path has a null character"

def scalarMessage : Yaml.ScalarFault → String
  | .form => "a scalar does not have the form of its tag"
  | .word => "a word is neither true nor false"
  | .empty => "a number has no digits"
  | .size => "a number is too large"
  | .noTime => "a scalar is no point in time"
  | .mapping => "expected string or bytes-like object, got 'list'"
  | .digits => "a number has too many digits to be read"
  | .endless => "a text leads back to itself"

def WriteFault.message : WriteFault → String
  | .keyKind kind => "keys must be str, int, float, bool or None, not " ++ kind
  | .cycle => "a container holds itself"
  | .tooLong => "an integer has too many digits to be written"

def Failure.message : Failure → String
  | .document fault => fault.message
  | .undecodable fault => fault.message
  | .file fault => fault.message
  | .tooLong => "an integer has too many digits to be read"
  | .scalar fault => scalarMessage fault
  | .unhashable kind => "unhashable type: '" ++ kind ++ "'"
  | .noMapping => "a mapping is needed"
  | .unwritable fault => fault.message

abbrev Run := ExceptT Failure Logged

namespace Run

def result {α : Type} (x : Run α) : Except Failure α := x.run.value

@[simp] theorem result_pure {α : Type} (a : α) : (pure a : Run α).result = .ok a := rfl

@[simp] theorem result_throw {α : Type} (f : Failure) : (throw f : Run α).result = .error f := rfl

@[simp] theorem result_bind {α β : Type} (x : Run α) (f : α → Run β) :
    (x >>= f).result = x.result.bind fun a => (f a).result := by
  match x with
  | Logged.mk (.ok _) _ => rfl
  | Logged.mk (.error _) _ => rfl

theorem bind_eq_ok {α β : Type} {x : Run α} {f : α → Run β} {b : β} :
    (x >>= f).result = .ok b ↔ ∃ a, x.result = .ok a ∧ (f a).result = .ok b := by
  rw [result_bind]
  cases x.result with
  | ok a => simp [Except.bind]
  | error e => simp [Except.bind]

def ofLogged {α : Type} (x : Logged α) : Run α := ExceptT.lift x

def ofExcept {α : Type} (x : Except Failure α) : Run α :=
  match x with
  | .ok a => pure a
  | .error f => throw f

def tell (n : Notice) : Run Unit := ofLogged (Logged.tell n)

@[simp] theorem result_tell (n : Notice) : (tell n).result = .ok () := rfl

def ofWritten {α : Type} (x : Except WriteFault α) : Run α := ofExcept (x.mapError .unwritable)

theorem ofWritten_eq_ok {α : Type} {x : Except WriteFault α} {a : α} :
    (ofWritten x).result = .ok a ↔ x = .ok a := by
  cases x with
  | ok b =>
    have hpure : ofWritten (.ok b) = pure b := rfl
    simp [hpure]
  | error e =>
    have hthrow : (ofWritten (.error e) : Run α) = throw (.unwritable e) := rfl
    simp [hthrow]

def written {α : Type} (fault : Option WriteFault) (a : α) : Run α :=
  match fault with
  | some f => throw (.unwritable f)
  | none => pure a

/-- The run as it goes where the text of every notice is written down at once: it ends at the first
one that has none. -/
def recorded {α : Type} (x : Run α) : Run α :=
  let result := x.run
  let settled := result.log.takeWhile (·.fault?.isNone)
  match result.log.findSome? Notice.fault? with
  | some fault => ExceptT.mk ⟨.error (.unwritable fault), settled⟩
  | none => x

end Run

end ApiTypes
