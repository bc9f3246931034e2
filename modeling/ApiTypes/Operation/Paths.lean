import ApiTypes.Operation.ParameterTypes
import ApiTypes.Failure
import ApiTypes.Schema

/-!
# Types of operations

One namespace per operation with the types of its request body, parameters and responses.
-/

namespace ApiTypes.Operation

/-! ## Responses -/

structure ResponseAlias where
  status : String
  media : List String
  members : List String
  deriving Repr, DecidableEq

def ResponseAlias.name (a : ResponseAlias) : String := "$" ++ a.status

def ResponseAlias.text (a : ResponseAlias) : String :=
  if a.media.isEmpty then "export type " ++ a.name ++ " = undefined;"
  else
    "/** " ++ String.intercalate ", " a.media ++ " */\nexport type " ++ a.name ++ " = " ++
      TypeExpr.joined " | " "never" a.members ++ ";"

def mediaType (m : Media) : Run TypeExpr :=
  if m.schema.isNull then pure (.identifier .none "unknown") else Schema.typeOf m.schema

def mediaText (m : Media) : Run String := do
  let type ← mediaType m
  Run.written type.declaredFault? type.declared

def responseAlias (status : String) (r : Response) : Run ResponseAlias := do
  let content := r.content.getD []
  let texts ← content.mapM fun m => mediaText m.2
  pure ⟨status, content.map (·.1), texts.eraseDups⟩

/-! ## Namespaces -/

def allParameters (op : Operation) : List Parameter := Location.all.flatMap op.parametersAt

def bodyText (op : Operation) : String :=
  match op.body with
  | some b => b.type.declared
  | none => "undefined"

def parameterRecords (op : Operation) : List (String × List Parameter) :=
  let optional (name : String) (ps : List Parameter) : List (String × List Parameter) :=
    if ps.isEmpty then [] else [(name, ps)]
  [("PathParameters", op.parametersAt .path), ("QueryParameters", op.parametersAt .query)] ++
    optional "HeaderParameters" (op.parametersAt .header) ++
    optional "CookieParameters" (op.parametersAt .cookie)

def namespaceText (name : String) (lines : List String) : String :=
  "export namespace " ++ name ++ " \x7b\n" ++ String.intercalate "\n" lines ++ "\n\x7d"

def pathNamespace (op : Operation) : Run String := do
  let parameters := op.allParameters
  let aliases ← Run.written (parameters.findSome? fun p => p.type.declaredFault?)
    (Parameter.aliases parameters)
  let body ← Run.written (op.body.bind fun b => b.type.declaredFault?) op.bodyText
  let responses ← op.responses.mapM fun r => responseAlias r.1 r.2
  let parts :=
    ["export type RequestBody = " ++ body ++ ";",
      namespaceText "Parameters" (aliases.map Parameter.Alias.text)] ++
    op.parameterRecords.map (fun r => Parameter.recordText r.1 r.2) ++
    [namespaceText "Responses" (responses.map ResponseAlias.text)]
  pure ("export namespace " ++ op.scope ++ " \x7b\n" ++ String.intercalate "\n\n" parts ++ "\n\x7d")

def pathsText (ops : List Operation) : Run String := do
  let parts ← ops.mapM pathNamespace
  pure ("export namespace Paths \x7b\n" ++ String.intercalate "\n\n" parts ++ "\n\x7d")

end ApiTypes.Operation
