import ApiTypes.Value.Json

/-!
# Documents

A document is a place in a graph of values: containers that may be reached on several ways stand in
a table of cells and are named by links. `snapshot` cuts the graph under a place down to a closed
value, in which a link marks a container inside itself. A closed value may be much larger than the
graph, so a document is closed only where its text is needed.
-/

namespace ApiTypes

structure Document where
  cells : Array Value
  here : Value

namespace Document

def ofValue (v : Value) : Document := ⟨#[], v⟩

instance : Inhabited Document := ⟨ofValue .null⟩

def moveTo (d : Document) (v : Value) : Document := { d with here := v }

/-! ## Reading a place -/

def value (d : Document) : Value :=
  match d.here with
  | .link n => (d.cells[n]?).getD .null
  | v => v

/-- The cell that holds the container at this place. Only such a container can be met again. -/
def cell? (d : Document) : Option Nat :=
  match d.here with
  | .link n => some n
  | _ => none

def entries? (d : Document) : Option (List (Scalar × Document)) :=
  match d.value with
  | .map entries => some (entries.map fun e => (e.1, d.moveTo e.2))
  | _ => none

def items? (d : Document) : Option (List Document) :=
  match d.value with
  | .seq items => some (items.map d.moveTo)
  | _ => none

def text? (d : Document) : Option String := d.value.text?

def isTruthy (d : Document) : Bool := d.value.isTruthy

def isNull (d : Document) : Bool := d.value.isNull

def isTrue (d : Document) : Bool :=
  match d.value with
  | .scalar (.bool b) => b
  | _ => false

def truthy? (d : Document) : Option Document := if d.isTruthy then some d else none

/-! ## Fields of a mapping -/

def isKey (key : String) (e : Scalar × Value) : Bool := e.1.text? == some key

def field? (d : Document) (key : String) : Option Document :=
  match d.value with
  | .map entries => (entries.find? (isKey key)).map fun e => d.moveTo e.2
  | _ => none

def field (d : Document) (key : String) : Document := (d.field? key).getD (d.moveTo .null)

def fieldText? (d : Document) (key : String) : Option String := (d.field key).text?

/-- The mapping with the value of one field replaced: a new container, in no cell. -/
def setField (d : Document) (key : String) (v : Value) : Document :=
  match d.value with
  | .map entries => d.moveTo (.map (entries.map fun e => if isKey key e then (e.1, v) else e))
  | v' => d.moveTo v'

/-! ## Closed values -/

mutual

/-- Closes a value inside containers whose cells are listed, the nearest one first. `follow` closes
what stands in a cell that is none of them. -/
def closeWith (follow : Nat → List (Option Nat) → Value) (cell : Option Nat)
    (outer : List (Option Nat)) : Value → Value
  | .scalar s => .scalar s
  | .seq items => .seq (closeItems follow (cell :: outer) items)
  | .tuple items => .tuple (closeItems follow (cell :: outer) items)
  | .map entries => .map (closeEntries follow (cell :: outer) entries)
  | .set members => .set members
  | .link n =>
    match outer.idxOf? (some n) with
    | some i => .link i
    | none => follow n outer

def closeItems (follow : Nat → List (Option Nat) → Value) (outer : List (Option Nat)) :
    List Value → List Value
  | [] => []
  | v :: vs => closeWith follow none outer v :: closeItems follow outer vs

def closeEntries (follow : Nat → List (Option Nat) → Value) (outer : List (Option Nat)) :
    List (Scalar × Value) → List (Scalar × Value)
  | [] => []
  | (k, v) :: rest => (k, closeWith follow none outer v) :: closeEntries follow outer rest

end

/-- Closes the container in a cell. No cell is entered inside itself, so a path into the graph
enters at most as many as there are. -/
def closeCell (cells : Array Value) : Nat → Nat → List (Option Nat) → Value
  | 0, _, _ => .null
  | hops + 1, n, outer =>
    closeWith (closeCell cells hops) (some n) outer ((cells[n]?).getD .null)

def snapshot (d : Document) : Value :=
  closeWith (closeCell d.cells d.cells.size) none [] d.here

/-! ## Texts -/

def inspect (d : Document) : String := d.snapshot.inspect

def fault? (d : Document) : Option WriteFault := d.snapshot.fault?

def json (d : Document) : String := d.snapshot.json

def jsonFault? (d : Document) : Option WriteFault := d.snapshot.jsonFault?

def written (d : Document) : Except WriteFault String :=
  match d.fault? with
  | some fault => .error fault
  | none => .ok d.snapshot.display

end Document

end ApiTypes
