import ApiTypes.Operation.Basic
import ApiTypes.Prose
import ApiTypes.Text.Quoted

/-!
# Calls of operations

The signature of every operation, once in an interface keyed by id and once in an interface keyed
by path and method.
-/

namespace ApiTypes.Operation

/-! ## Signatures -/

structure Signature where
  scope : String
  records : List String
  hasBody : Bool
  status : Option String
  deriving Repr, DecidableEq

/-- The first declared response stands for the whole call. -/
def signature (op : Operation) : Signature :=
  let record (l : Location) (name : String) : List String :=
    if (op.parametersAt l).isEmpty then [] else [name]
  { scope := op.scope
    records := record .path "PathParameters" ++ record .query "QueryParameters"
    hasBody := op.body.isSome
    status := op.responses.head?.map (·.1) }

def Signature.text (s : Signature) : String :=
  let inScope (name : String) : String := "Paths." ++ s.scope ++ "." ++ name
  let parameters := match s.records with
    | [] => "null | undefined"
    | names => "Parameters<" ++ String.intercalate " & " (names.map inScope) ++ ">"
  let data := if s.hasBody then inScope "RequestBody" else "undefined"
  let response := match s.status with
    | some status => inScope ("Responses.$" ++ status)
    | none => "any"
  "(parameters?: " ++ parameters ++ ", data?: " ++ data ++
    ", config?: AxiosRequestConfig) => OperationResponse<" ++ response ++ ">"

/-! ## By id -/

def remarks (op : Operation) : List String :=
  (Prose.oneLine? op.summary).toList ++ (Prose.oneLine? op.description).toList

def member (op : Operation) : String :=
  let comment := match op.remarks with
    | [] => ""
    | lines => "/**\n" ++ String.intercalate "\n" (lines.map (" * " ++ ·)) ++ "\n */\n"
  comment ++ op.id ++ ": " ++ op.signature.text ++ ";"

def methodsText (ops : List Operation) : String :=
  "export interface OperationMethods \x7b\n" ++ String.intercalate "\n" (ops.map member) ++ "\n\x7d"

/-! ## By path -/

def pathMember (op : Operation) : String := "  " ++ op.method ++ ": " ++ op.signature.text ++ ";"

def byPath (ops : List Operation) : Table String (List Operation) :=
  Table.group (ops.map fun op => (op.path, op))

def pathEntry (path : String) (ops : List Operation) : String :=
  "  " ++ Text.quoted path ++ ": \x7b\n" ++ String.intercalate "\n" (ops.map pathMember) ++
    "\n  \x7d"

def dictionaryText (ops : List Operation) : String :=
  "export interface PathsDictionary \x7b\n" ++
    String.intercalate "\n" ((byPath ops).map fun e => pathEntry e.1 e.2) ++ "\n\x7d"

end ApiTypes.Operation
