import ApiTypes.TypeExpr.Basic
import ApiTypes.Name
import ApiTypes.Prose

/-!
# Declared types

The text of a type expression in a declaration. `[]` binds closer than `&`, and `&` closer than
`|`, so unions and intersections under an array and unions under an intersection stand in
parentheses.
-/

namespace ApiTypes.TypeExpr

/-! ## Text -/

def parenthesized (s : String) : String := "(" ++ s ++ ")"

def joined (operator empty : String) (operands : List String) : String :=
  let s := String.intercalate operator operands
  if s.isEmpty then empty else s

def sampleText (d : Document) : String :=
  match d.text? with
  | some s => s
  | none => d.json

def remarks (info : Info) : List String :=
  (Prose.oneLine? info.description).toList ++
    (info.sample.map fun d => ["example:", sampleText d]).getD []

def propertyText (name : String) (required : Bool) (t : TypeExpr) (declared : String) : String :=
  let comment := match remarks t.info with
    | [] => ""
    | lines => Prose.blockComment lines Prose.commentLead ++ "\n"
  comment ++ "    " ++ Name.propertyKey name ++ (if required then "" else "?") ++ ": " ++
    (if t.lacksNull then declared ++ " | null" else declared) ++ ";"

theorem exists_propertyText_eq (name : String) (required : Bool) (t : TypeExpr) (declared : String) :
    ∃ comment,
      (comment = "" ∨ ∃ lines, comment = Prose.blockComment lines Prose.commentLead ++ "\n") ∧
      propertyText name required t declared = comment ++ "    " ++ Name.propertyKey name ++
        (if required then "" else "?") ++ ": " ++
        (if t.lacksNull then declared ++ " | null" else declared) ++ ";" := by
  refine ⟨_, ?_, rfl⟩
  split
  · exact .inl rfl
  · exact .inr ⟨_, rfl⟩

def arrayOperand (t : TypeExpr) (declared : String) : String :=
  match t with
  | union .. | intersection .. => parenthesized declared
  | _ => declared

def intersectionOperand (t : TypeExpr) (declared : String) : String :=
  match t with
  | union .. => parenthesized declared
  | _ => declared

mutual

def declared : TypeExpr → String
  | identifier _ name => name
  | literal _ value => value.json
  | array _ element => arrayOperand element element.declared ++ "[]"
  | union _ members => joined " | " "never" (declaredMembers members)
  | intersection _ members => joined " & " "unknown" (declaredOperands members)
  | generic _ base params =>
    base.declared ++ "<" ++ String.intercalate ", " (declaredMembers params) ++ ">"
  | object _ properties required =>
    "\x7b\n" ++ String.intercalate "\n" (declaredProperties required properties) ++ "\n\x7d"

def declaredMembers : List TypeExpr → List String
  | [] => []
  | t :: ts => t.declared :: declaredMembers ts

def declaredOperands : List TypeExpr → List String
  | [] => []
  | t :: ts => intersectionOperand t t.declared :: declaredOperands ts

def declaredProperties (required : List String) : List (String × TypeExpr) → List String
  | [] => []
  | (name, t) :: rest =>
    propertyText name (required.contains name) t t.declared :: declaredProperties required rest

end

theorem declaredMembers_eq_map (ts : List TypeExpr) : declaredMembers ts = ts.map declared := by
  induction ts with
  | nil => rfl
  | cons t ts ih => simp [declaredMembers, ih]

theorem declaredOperands_eq_map (ts : List TypeExpr) :
    declaredOperands ts = ts.map fun t => intersectionOperand t t.declared := by
  induction ts with
  | nil => rfl
  | cons t ts ih => simp [declaredOperands, ih]

theorem declaredProperties_eq_map (required : List String) (ps : List (String × TypeExpr)) :
    declaredProperties required ps =
      ps.map fun p => propertyText p.1 (required.contains p.1) p.2 p.2.declared := by
  induction ps with
  | nil => rfl
  | cons p ps ih => simp [declaredProperties, ih]

def documented (t : TypeExpr) : String :=
  match t.info.description with
  | none => t.declared
  | some s => if s.isEmpty then t.declared else Prose.lineComment s ++ t.declared

/-! ## Faults -/

mutual

/-- The first part without a written form, in the order in which the text is put together: the
parameters of a generic come before its base, and a property's example before its type. -/
def declaredFault? : TypeExpr → Option WriteFault
  | identifier _ _ => none
  | literal _ value => value.jsonFault?
  | array _ element => element.declaredFault?
  | union _ members | intersection _ members => membersFault? members
  | generic _ base params => membersFault? params <|> base.declaredFault?
  | object _ properties _ => propertiesFault? properties

def membersFault? : List TypeExpr → Option WriteFault
  | [] => none
  | t :: ts => t.declaredFault? <|> membersFault? ts

def propertiesFault? : List (String × TypeExpr) → Option WriteFault
  | [] => none
  | (_, t) :: rest =>
    (t.info.sample.bind Document.jsonFault?) <|> t.declaredFault? <|> propertiesFault? rest

end

end ApiTypes.TypeExpr
