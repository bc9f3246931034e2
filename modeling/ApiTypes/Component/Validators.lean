import ApiTypes.Component.Cycles
import ApiTypes.TypeExpr.Validator

/-!
# Validators of components

One constant per component, groups before the groups that refer to them. Inside a group the order
does not matter, since its members are deferred in each other's validators.
-/

namespace ApiTypes.Component

structure ValidatorDeclaration where
  component : String
  validator : String
  deriving Repr, DecidableEq

def ValidatorDeclaration.text (d : ValidatorDeclaration) : String :=
  "export const " ++ TypeExpr.validatorName d.component ++ ": z.ZodType<any> = " ++ d.validator ++
    ";"

def groupValidators (group : List Component) : List ValidatorDeclaration :=
  let deferred := group.map (·.name)
  group.map fun c => ⟨c.name, c.type.validator deferred⟩

def validatorDeclarations (cs : List Component) : List ValidatorDeclaration :=
  (groups cs).flatMap groupValidators

def validatorsText (cs : List Component) : String :=
  String.intercalate "\n\n" ((validatorDeclarations cs).map ValidatorDeclaration.text)

def validatorsFault? (cs : List Component) : Option WriteFault :=
  (groups cs).flatten.findSome? fun c => c.type.validatorFault?

end ApiTypes.Component
