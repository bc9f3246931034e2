import ApiTypes.Component.Validators
import ApiTypes.TypeExpr.Declared

/-!
# Declarations of components

The namespace with one type per component, and an alias of each at the root of the module.
-/

namespace ApiTypes.Component

/-- A description stands in front of the declaration where the type brings none along. -/
def comment (c : Component) : String :=
  match c.description with
  | some s =>
    if s.isEmpty || c.type.info.description.any (!·.isEmpty) then "" else Prose.lineComment s
  | none => ""

def declaration (c : Component) : String :=
  c.comment ++ match c.type with
    | .object .. => "export interface " ++ c.name ++ " " ++ c.type.documented
    | _ => "export type " ++ c.name ++ " = " ++ c.type.documented ++ ";"

def rootAlias (c : Component) : String :=
  "export type " ++ c.name ++ " = " ++ componentPath c.name ++ ";"

def declarationsText (cs : List Component) (withValidators : Bool) : String :=
  "export namespace Components \x7b\nexport namespace Schemas \x7b\n" ++
    (if withValidators then validatorsText cs else "") ++ "\n\n" ++
    String.intercalate "\n\n" (cs.map declaration) ++ "\n\x7d\n\x7d\n\n" ++
    String.intercalate "\n" (cs.map rootAlias)

def declarationsFault? (cs : List Component) (withValidators : Bool) : Option WriteFault :=
  cs.findSome? (fun c => c.type.declaredFault?) <|>
    if withValidators then validatorsFault? cs else none

end ApiTypes.Component
