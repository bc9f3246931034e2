import ApiTypes.Document
import ApiTypes.Table

/-!
# Type expressions

The types that schemas become. Every expression may carry a description and an example for its
readers and be marked as admitting null.
-/

namespace ApiTypes

structure Info where
  description : Option String
  sample : Option Document
  nullable : Bool

def Info.none : Info := ⟨Option.none, Option.none, false⟩

instance : Inhabited Info := ⟨Info.none⟩

/-- The required names of an `object` are names of its properties. -/
inductive TypeExpr
  | identifier (info : Info) (name : String)
  | literal (info : Info) (value : Document)
  | array (info : Info) (element : TypeExpr)
  | union (info : Info) (members : List TypeExpr)
  | intersection (info : Info) (members : List TypeExpr)
  | generic (info : Info) (base : TypeExpr) (params : List TypeExpr)
  | object (info : Info) (properties : List (String × TypeExpr)) (required : List String)

namespace TypeExpr

instance : Inhabited TypeExpr := ⟨identifier .none "any"⟩

def info : TypeExpr → Info
  | identifier i _ | literal i _ | array i _ | union i _ | intersection i _ | generic i _ _
  | object i _ _ => i

/-- An object type. A property named twice keeps its first place and its last type; required names
that name no property are dropped. -/
def ofProperties (info : Info) (properties : List (String × TypeExpr)) (required : List String) :
    TypeExpr :=
  let table := Table.ofList properties
  object info table (required.filter (Table.has table))

def any : TypeExpr := identifier .none "any"

def openMap : String := "\x7b [key: string]: any \x7d"

/-! ## Null -/

def isNullMember : TypeExpr → Bool
  | literal _ value => value.isNull
  | identifier _ name => name == "null"
  | _ => false

def isNullableUnion : TypeExpr → Bool
  | union _ members => members.any isNullMember
  | _ => false

def lacksNull (t : TypeExpr) : Bool := t.info.nullable && !t.isNullableUnion

end TypeExpr

/-! ## Component names -/

def componentScope : String := "Components.Schemas"

def componentPath (name : String) : String := componentScope ++ "." ++ name

def componentName (path : String) : String :=
  let scope := (componentScope ++ ".").toList
  if scope.isPrefixOf path.toList then String.ofList (path.toList.drop scope.length) else path

end ApiTypes
