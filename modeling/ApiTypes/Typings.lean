import ApiTypes.Component.Declared
import ApiTypes.Operation.Calls
import ApiTypes.Operation.Collect
import ApiTypes.Operation.Duplicates
import ApiTypes.Operation.Paths
import ApiTypes.Operation.ResponseValidators

/-!
# Typings

The module of types of a whole document: components, types of operations, signatures, and with
validators the table of response validators, between a fixed head and tail.
-/

namespace ApiTypes

structure Options where
  /-- Also take operations without an `operationId`. -/
  keep : Bool
  validators : Bool
  deriving Repr, DecidableEq

/-- Components and operations of a document, with all operations that share an id. -/
structure Api where
  components : List Component
  operations : List Operation

/-! ## Reading -/

def DocumentFault.of? (d : Document) : Option DocumentFault :=
  let isBad (part : Document) : Bool := !part.isNull && part.entries?.isNone
  let components := d.field "components"
  if d.entries?.isNone then some .shape
  else if isBad (d.field "paths") then some .pathsShape
  else if isBad components then some .componentsShape
  else if isBad (components.field "schemas") then some .schemasShape
  else none

def Api.read (d : Document) (keep : Bool) : Run Api := do
  if let some fault := DocumentFault.of? d then throw (.document fault)
  let operations ← Operation.collect d keep
  let components ← Component.collect (d.field "components")
  pure ⟨components, operations⟩

/-! ## Writing -/

def headText : String := "/* eslint-disable @typescript-eslint/no-namespace */"

def validatorImport : String := "import \x7b z \x7d from 'zod'"

def noticeText : String := "// Automatically generated types"

def tailText : String := "\n".intercalate
  ["export type ImplicitParamValue = string | number",
    "export interface UnknownParamsObject \x7b",
    "    [parameter: string]: ImplicitParamValue",
    "\x7d",
    "export type SingleParam = ImplicitParamValue",
    "export type Parameters<ParamsObject = UnknownParamsObject> =",
    "    | ParamsObject",
    "    | SingleParam",
    "export type OperationResponse<T = any> = Promise<T>",
    "export type AxiosRequestConfig = any"]

/-- The text of a module; of operations with one id only the last is written. -/
def Api.typings (api : Api) (validators : Bool) : Run String := do
  let ops := Operation.lastPerId api.operations
  Run.tell (.rendering api.components.length ops.length)
  let components ← Run.written (Component.declarationsFault? api.components validators)
    (Component.declarationsText api.components validators)
  let paths ← Operation.pathsText ops
  let blocks :=
    [headText, if validators then validatorImport else "", noticeText, components, paths,
      Operation.methodsText ops, Operation.dictionaryText ops,
      if validators then Operation.validatorTableText ops else "", tailText]
  pure (String.intercalate "\n\n" (blocks.filter (!·.isEmpty)) ++ "\n")

def typings (d : Document) (options : Options) : Run String := do
  (← Api.read d options.keep).typings options.validators

end ApiTypes
