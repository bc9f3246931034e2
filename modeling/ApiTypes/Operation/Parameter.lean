import ApiTypes.Operation.Basic
import ApiTypes.Failure
import ApiTypes.Schema

/-!
# Parameters of operations

The parameters of a path item hold for all its operations; an operation replaces one by declaring
another with its name and location.
-/

namespace ApiTypes

def Document.containerKind? (d : Document) : Option String :=
  match d.value with
  | .seq _ => some "list"
  | .map _ => some "dict"
  | .set _ => some "set"
  | .tuple _ | .link _ | .scalar _ => none

def Document.scalarToCompare (d : Document) : Run Scalar :=
  match d.containerKind? with
  | some kind => throw (.unhashable kind)
  | none =>
    match d.value with
    | .scalar s => pure s
    | _ => pure .null

namespace Parameter

def identity (p : Document) : Run (Scalar × Scalar) := do
  let name ← (p.field "name").scalarToCompare
  let location ← (p.field "in").scalarToCompare
  pure (name, location)

def sameIdentity (a b : Scalar × Scalar) : Bool := a.1.sameKey b.1 && a.2.sameKey b.2

def identities (ps : List Document) : Run (List (Document × Scalar × Scalar)) :=
  (ps.filter fun p => p.entries?.isSome).mapM fun p => do pure (p, ← identity p)

/-- The parameters of the path item that the operation does not replace, then its own. -/
def merge (shared own : Document) : Run (List Document) :=
  match shared.items? with
  | none | some [] => pure (own.items?.getD [])
  | some inherited => do
    let own := own.items?.getD []
    let declared ← identities own
    let inherited ← identities inherited
    let kept := inherited.filter fun p => !declared.any fun q => sameIdentity p.2 q.2
    pure (kept.map (·.1) ++ own)

/-- Parameters with this ending in their names speak to tools and are left out. -/
def hintEnding : String := "@TypeHint"

/-- The location of a parameter, if it is a known one; it is passed in the query where none is
given. -/
def location? (p : Document) : Run (Option Location) := do
  match p.field? "in" with
  | none => pure (some .query)
  | some l => pure ((← l.scalarToCompare).text?.bind Location.ofName?)

def read (p : Document) : Run (Option Parameter) := do
  match p.fieldText? "name" with
  | none =>
    Run.tell (.nameless p)
    pure none
  | some name =>
    if hintEnding.toList.isSuffixOf name.toList then pure none
    else match ← location? p with
      | none => pure none
      | some location =>
        let type ← Schema.typeOf (p.field "schema")
        let typeName := Name.capitalize (Name.sanitize name)
        pure (some ⟨name, location, (p.field "required").isTrue, typeName, type⟩)

def readAll (shared own : Document) : Run (List Parameter) := do
  let ps ← merge shared own
  pure ((← ps.mapM read).filterMap id)

end Parameter

end ApiTypes
