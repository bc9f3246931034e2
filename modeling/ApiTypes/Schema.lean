import ApiTypes.Failure
import ApiTypes.Name
import ApiTypes.TypeExpr.Basic

/-!
# Schemas

`Schema.typeOf` maps any place of a document to a type expression. References are named and never
followed. Two bounds keep the result finite: at most six schemas stand inside one another, and a
schema inside itself is not opened again. The one thing that can fail is the text of a property key.
-/

namespace ApiTypes.Schema

def info (s : Document) : Info :=
  { description := s.fieldText? "description"
    sample := if (s.field "example").isNull then none else some (s.field "example")
    nullable := (s.field "nullable").isTrue }

def kindType? (kind : String) : Option String :=
  if kind == "string" then some "string"
  else if kind == "integer" || kind == "number" then some "number"
  else if kind == "boolean" then some "boolean"
  else if kind == "object" then some TypeExpr.openMap
  else none

def unopened (s : Document) : TypeExpr :=
  .identifier (info s) (((s.fieldText? "type").bind kindType?).getD "any")

def referenceType (ref : String) : TypeExpr :=
  .identifier .none (componentPath (Name.sanitize (Name.lastSegment ref)))

def maxDepth : Int := 5

/-- The type of a schema at `depth`, inside the mappings in the cells `outer`. `room` is the number
of levels that are left, this one counted. -/
def typeAt (room : Nat) (depth : Int) (outer : List Nat) (s : Document) : Run TypeExpr :=
  if s.entries?.isNone then pure .any
  else match s.fieldText? "$ref" with
  | some ref => pure (referenceType ref)
  | none =>
    let kind := s.field "type"
    let guarded : Run TypeExpr := do
      Run.tell (.unopened depth kind)
      pure (unopened s)
    match room with
    | 0 => guarded
    | room + 1 =>
      if s.cell?.any outer.contains then guarded
      else
        let inner := typeAt room (depth + 1) (s.cell?.toList ++ outer)
        match (s.field "enum").items? with
        | some values => pure (.union .none (values.map (.literal .none)))
        | none =>
        match (s.field "anyOf").items? <|> (s.field "oneOf").items? with
        | some parts => do pure (.union .none (← parts.mapM inner))
        | none =>
        match (s.field "allOf").items? with
        | some parts => do pure (.intersection .none (← parts.mapM inner))
        | none =>
        match kind.items? with
        | some kinds => do
          pure (.union .none (← kinds.mapM fun k => inner (s.setField "type" k.here)))
        | none =>
        match kind.text? with
        | some "null" => pure (.identifier (info s) "null")
        | some "array" => do pure (.array .none (← inner (s.field "items")))
        | some "object" =>
          match (s.field "properties").entries? with
          | none => pure (unopened s)
          | some entries => do
            let properties ← entries.mapM fun (key, schema) => do
              pure (← Run.ofWritten key.written, ← inner schema)
            let required := ((s.field "required").items?.getD []).filterMap Document.text?
            pure (.ofProperties (info s) properties required)
        | _ => pure (unopened s)

def typeAtDepth (depth : Int) (s : Document) : Run TypeExpr :=
  typeAt (maxDepth + 1 - depth).toNat depth [] s

def typeOf (s : Document) : Run TypeExpr := typeAtDepth 0 s

end ApiTypes.Schema
