import ApiTypes.Document
import ApiTypes.Json.Reader
import ApiTypes.Text.Base64
import ApiTypes.Yaml.Layout
import ApiTypes.Yaml.Merge
import ApiTypes.Yaml.Number

/-!
# Reading YAML

`Yaml.read` gives the document that a text describes. Every collection has the cell with the number
of its node. Collections are filled in the order in which they are met, outer ones first, so of
several faults the one met first counts.
-/

namespace ApiTypes.Yaml

/-! ## Scalars -/

/-- The text of a node; a mapping stands for the value of its `=` key. More hops than nodes lead around
in a circle. -/
def nodeText (g : Graph) : Nat → Nat → Except Fault String
  | 0, _ => .error (.scalar .endless)
  | hops + 1, id =>
    match g.content id with
    | .text s => .ok s
    | .seq _ => .error .malformed
    | .map es =>
      match es.find? fun e => g.tag e.1 == .value with
      | some e => nodeText g hops e.2
      | none => .error .malformed

def readBool (s : String) : Except ScalarFault Scalar :=
  let w := s.map Char.toLower
  if w == "yes" || w == "true" || w == "on" then .ok (.bool true)
  else if w == "no" || w == "false" || w == "off" then .ok (.bool false)
  else .error .word

def readBytes (s : String) : Except Fault Scalar :=
  if !s.toList.all fun c => c.toNat < 128 then .error .malformed
  else match Text.decodeBase64 0 0 0 s.toList with
    | some bs => .ok (.bytes bs)
    | none => .error .malformed

def inScalar {α : Type} (x : Except ScalarFault α) : Except Fault α := x.mapError .scalar

def readScalar (node : Nat) (tag : Tag) (isMap : Bool) (s : String) : Except Fault Scalar :=
  match tag with
  | .null => .ok .null
  | .bool => inScalar (readBool s)
  | .int => inScalar ((Number.int s).map .int)
  | .float => inScalar (Number.float node s)
  | .bytes => readBytes s
  | .time => inScalar (if isMap then .error .mapping else Time.read s.toList)
  | .text => .ok (.text s)
  | _ => .error .malformed

/-! ## Collections -/

/-- The graph, the most merge keys it may have, the cells filled so far, which collections have been
met, and those that are to be filled, the last one first. -/
structure Filling where
  graph : Graph
  merges : Nat
  cells : Array Value
  met : Array Bool
  queue : List Nat

abbrev Fill := StateT Filling (Except Fault)

namespace Fill

def isCollection : Tag → Bool
  | .seq | .map | .set | .pairs => true
  | _ => false

def isScalar : Tag → Bool
  | .null | .bool | .int | .float | .bytes | .time | .text => true
  | _ => false

def value (id : Nat) : Fill Value := do
  let g := (← get).graph
  let tag := g.tag id
  if isCollection tag then
    modify fun s =>
      if s.met.getD id true then s
      else { s with met := s.met.setIfInBounds id true, queue := id :: s.queue }
    pure (.link id)
  else if !isScalar tag then throw .malformed
  else
    let s ← nodeText g (g.size + 1) id
    let isMap := match g.content id with
      | .map _ => true
      | _ => false
    pure (.scalar (← readScalar id tag isMap s))

def key (id : Nat) : Fill Scalar := do
  match ← value id with
  | .scalar s => pure s
  | _ => throw .malformed

def entries (id : Nat) : Fill (Table Scalar Value) := do
  match (← get).graph.content id with
  | .map _ =>
    let s ← get
    let g ← s.graph.merge s.merges id
    set { s with graph := g }
    let es ← (g.entries id).mapM fun e => do
      let k ← key e.1
      pure (k, ← value e.2)
    pure (Table.ofList es)
  | _ => throw .malformed

def pair (id : Nat) : Fill Value := do
  match (← get).graph.content id with
  | .map [(k, v)] => pure (.tuple [← value k, ← value v])
  | _ => throw .malformed

def items (id : Nat) (item : Nat → Fill Value) : Fill Value := do
  match (← get).graph.content id with
  | .seq ids => pure (.seq (← ids.mapM item))
  | _ => throw .malformed

def fill (id : Nat) : Fill Unit := do
  let v ← match (← get).graph.tag id with
    | .seq => items id value
    | .pairs => items id pair
    | .set => do pure (.set ((← entries id).map (·.1)))
    | _ => do pure (.map (← entries id))
  modify fun s => { s with cells := s.cells.setIfInBounds id v }

/-- Fills all collections, those that are met in one round in the next round. Each is met once, so
there are no more rounds than nodes. -/
def fillAll : Nat → Fill Unit
  | 0 => pure ()
  | rounds + 1 => do
    let ids := (← get).queue.reverse
    if !ids.isEmpty then
      modify fun s => { s with queue := [] }
      ids.forM fill
      fillAll rounds

end Fill

def Graph.toDocument (g : Graph) (root : Nat) : Except Fault Document := do
  let fillRoot : Fill Value := do
    let v ← Fill.value root
    Fill.fillAll (g.size + 1)
    pure v
  let cells := Array.replicate g.size Value.null
  let (v, s) ← fillRoot.run ⟨g, g.mergeCount, cells, Array.replicate g.size false, []⟩
  return ⟨s.cells, v⟩

def read (cs : List Char) : Except Fault Document := do
  let (g, root) ← Graph.ofTokens (Token.ofText cs)
  match root with
  | none => return .ofValue .null
  | some root => g.toDocument root

end ApiTypes.Yaml
