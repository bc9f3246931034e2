import ApiTypes.Operation.Basic

/-!
# Operations with one id

Where operations are keyed by id the last one counts, at the place of the first.
-/

namespace ApiTypes.Operation

def lastPerId (ops : List Operation) : List Operation :=
  (Table.ofList (ops.map fun op => (op.id, op))).map (·.2)

structure Duplicate where
  id : String
  operations : List Operation

def Duplicate.message (d : Duplicate) : String :=
  "Operation id '" ++ d.id ++ "' is used " ++ toString d.operations.length ++ " times (" ++
    String.intercalate ", " (d.operations.map label) ++ ")"

def duplicates (ops : List Operation) : List Duplicate :=
  (Table.group (ops.map fun op => (op.id, op))).filterMap fun (id, holders) =>
    if 1 < holders.length then some ⟨id, holders⟩ else none

end ApiTypes.Operation
