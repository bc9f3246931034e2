import ApiTypes.Operation.Basic
import ApiTypes.TypeExpr.Declared

/-!
# Types of parameters

Each parameter has an alias of its type in the `Parameters` namespace. A parameter whose name needs
quotes is a quoted key of an interface, and the records of parameters refer to it by that key.
-/

namespace ApiTypes.Parameter

def aliasName (p : Parameter) : String :=
  if Name.isBare p.name then p.typeName else "Param_" ++ p.typeName

structure Alias where
  name : String
  keys : Table String String
  deriving Repr

def aliases (ps : List Parameter) : List Alias :=
  (Table.group (ps.map fun p => (p.aliasName, p.name, p.type.declared))).map fun (name, keys) =>
    ⟨name, Table.ofListNew keys⟩

/-- An alias whose first key is a bare name is a plain type, whatever other keys it has. -/
def Alias.text (a : Alias) : String :=
  match a.keys with
  | [] => ""
  | (first, declared) :: _ =>
    if Name.isBare first then "export type " ++ a.name ++ " = " ++ declared ++ ";"
    else
      let fields := a.keys.map fun (key, declared) =>
        "    " ++ Text.quoted key ++ ": " ++ declared ++ ";"
      "export interface " ++ a.name ++ " \x7b\n" ++ String.intercalate "\n" fields ++ "\n\x7d"

def reference (p : Parameter) : String :=
  "Parameters." ++ p.aliasName ++
    if Name.isBare p.name then "" else "[" ++ Text.quoted p.name ++ "]"

def field (p : Parameter) : String :=
  "    " ++ Name.propertyKey p.name ++ (if p.required then "" else "?") ++ ": " ++ p.reference ++
    ";"

def recordText (name : String) (ps : List Parameter) : String :=
  "export interface " ++ name ++ " \x7b\n" ++ String.intercalate "\n" (ps.map field) ++ "\n\x7d"

end ApiTypes.Parameter
