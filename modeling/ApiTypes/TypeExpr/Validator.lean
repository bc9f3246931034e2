import ApiTypes.TypeExpr.Basic
import ApiTypes.Text.Quoted

/-!
# Validators

The text of the validator that accepts the values of a type expression. A reference to one of the
components in `deferred`, whose declarations are not complete yet, is looked up only when it is
used.
-/

namespace ApiTypes.TypeExpr

def primitives : List String :=
  ["string", "number", "boolean", "any", "unknown", "undefined", "null", "never"]

def validatorName (name : String) : String := name ++ "Schema"

def identifierValidator (deferred : List String) (name : String) : String :=
  if primitives.contains name then "z." ++ name ++ "()"
  else if name == openMap then "z.record(z.string(), z.any())"
  else if deferred.contains (componentName name) then "z.lazy(() => " ++ validatorName name ++ ")"
  else validatorName name

def unionValidator : List String → String
  | [] => "z.never()"
  | [v] => v
  | vs => "z.union([" ++ String.intercalate ", " vs ++ "])"

def intersectionValidator : List String → String
  | [] => "z.unknown()"
  | v :: vs => vs.foldl (fun merged v => "z.intersection(" ++ merged ++ ", " ++ v ++ ")") v

def propertyValidator (name : String) (required : Bool) (t : TypeExpr) (validator : String) :
    String :=
  Text.quoted name ++ ": " ++ validator ++ (if t.lacksNull then ".nullable()" else "") ++
    (if required then "" else ".optional()")

def objectValidator : List String → String
  | [] => "z.object(\x7b\x7d)"
  | entries => "z.object(\x7b " ++ String.intercalate ", " entries ++ " \x7d)"

mutual

/-- Parameters of a generic do not show at run time. -/
def validator (deferred : List String) : TypeExpr → String
  | identifier _ name => identifierValidator deferred name
  | literal _ value => "z.literal(" ++ value.json ++ ")"
  | array _ element => "z.array(" ++ element.validator deferred ++ ")"
  | union _ members => unionValidator (validators deferred members)
  | intersection _ members => intersectionValidator (validators deferred members)
  | generic _ base _ => base.validator deferred
  | object _ properties required =>
    objectValidator (propertyValidators deferred required properties)

def validators (deferred : List String) : List TypeExpr → List String
  | [] => []
  | t :: ts => t.validator deferred :: validators deferred ts

def propertyValidators (deferred required : List String) :
    List (String × TypeExpr) → List String
  | [] => []
  | (name, t) :: rest =>
    propertyValidator name (required.contains name) t (t.validator deferred) ::
      propertyValidators deferred required rest

end

theorem validators_eq_map (deferred : List String) (ts : List TypeExpr) :
    validators deferred ts = ts.map (validator deferred) := by
  induction ts with
  | nil => rfl
  | cons t ts ih => simp [validators, ih]

theorem propertyValidators_eq_map (deferred required : List String)
    (ps : List (String × TypeExpr)) :
    propertyValidators deferred required ps =
      ps.map fun p =>
        propertyValidator p.1 (required.contains p.1) p.2 (p.2.validator deferred) := by
  induction ps with
  | nil => rfl
  | cons p ps ih => simp [propertyValidators, ih]

/-! ## Faults -/

mutual

def validatorFault? : TypeExpr → Option WriteFault
  | identifier _ _ => none
  | literal _ value => value.jsonFault?
  | array _ element => element.validatorFault?
  | union _ members | intersection _ members => validatorsFault? members
  | generic _ base _ => base.validatorFault?
  | object _ properties _ => propertyValidatorsFault? properties

def validatorsFault? : List TypeExpr → Option WriteFault
  | [] => none
  | t :: ts => t.validatorFault? <|> validatorsFault? ts

def propertyValidatorsFault? : List (String × TypeExpr) → Option WriteFault
  | [] => none
  | (_, t) :: rest => t.validatorFault? <|> propertyValidatorsFault? rest

end

end ApiTypes.TypeExpr
