import ApiTypes.Document
import ApiTypes.Name
import ApiTypes.TypeExpr.Basic

/-!
# Operations

One method at one path of a document, with all that its declarations need. Schemas of responses are
kept as they stand in the document.
-/

namespace ApiTypes

inductive Location
  | path
  | query
  | header
  | cookie
  deriving Repr, DecidableEq

namespace Location

def name : Location → String
  | path => "path"
  | query => "query"
  | header => "header"
  | cookie => "cookie"

def all : List Location := [path, query, header, cookie]

def ofName? (s : String) : Option Location := all.find? fun l => l.name == s

end Location

structure Parameter where
  name : String
  location : Location
  required : Bool
  typeName : String
  type : TypeExpr

structure Body where
  contentType : String
  type : TypeExpr

structure Media where
  schema : Document
  sample : Document
  samples : Document
  encoding : Document

structure Response where
  description : Option String
  headers : Document
  content : Option (Table String Media)

structure Operation where
  id : String
  path : String
  method : String
  summary : String
  description : Option String
  parameters : List Parameter
  body : Option Body
  responses : Table String Response

namespace Operation

def parametersAt (op : Operation) (l : Location) : List Parameter :=
  op.parameters.filter fun p => p.location == l

def labelText (method path : String) : String := method.map Char.toUpper ++ " " ++ path

def label (op : Operation) : String := labelText op.method op.path

def scope (op : Operation) : String := Name.capitalize op.id

end Operation

end ApiTypes
