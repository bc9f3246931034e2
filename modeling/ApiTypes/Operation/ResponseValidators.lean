import ApiTypes.Operation.Basic
import ApiTypes.TypeExpr.Validator

/-!
# Validators of responses

A table from the id of each operation to the validator of its first successful response, where that
is a component.
-/

namespace ApiTypes.Operation

def isSuccess (status : String) : Bool := status.toList.head? == some '2'

def successComponent? (op : Operation) : Option String := do
  let (_, response) ← op.responses.find? fun r => isSuccess r.1
  let (_, media) ← (response.content.getD []).head?
  let ref ← media.schema.fieldText? "$ref"
  pure (Name.sanitize (Name.lastSegment ref))

def responseValidator (op : Operation) : String :=
  match op.successComponent? with
  | some name => TypeExpr.validatorName (componentPath name)
  | none => "undefined"

/-- Operations with one id share the row of the last one. -/
def validatorTable (ops : List Operation) : Table String String :=
  Table.ofList (ops.map fun op => (op.id, op.responseValidator))

def validatorTableText (ops : List Operation) : String :=
  "export const apiResponseValidators = \x7b\n" ++
    String.intercalate "\n" ((validatorTable ops).map fun row => row.1 ++ ": " ++ row.2 ++ ",") ++
    "\n\x7d as const"

end ApiTypes.Operation
