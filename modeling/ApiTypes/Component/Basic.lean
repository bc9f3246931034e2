import ApiTypes.Schema

/-!
# Components

The named schemas of a document. Two of them whose names become one are one component, the first.
-/

namespace ApiTypes

structure Component where
  name : String
  type : TypeExpr
  description : Option String

namespace Component

/-- Reads entries one by one; one whose name is among those `taken` is skipped. -/
def readEntries (taken : List String) : List (Scalar × Document) → Run (List Component)
  | [] => pure []
  | (key, schema) :: rest => do
    let name := Name.sanitize (← Run.ofWritten key.written)
    if taken.contains name then
      Run.tell (.componentClash key name)
      readEntries taken rest
    else
      let type ← Schema.typeOf schema
      pure (⟨name, type, schema.fieldText? "description"⟩ :: (← readEntries (name :: taken) rest))

def collect (components : Document) : Run (List Component) :=
  readEntries [] (((components.field "schemas").entries?).getD [])

end Component

end ApiTypes
