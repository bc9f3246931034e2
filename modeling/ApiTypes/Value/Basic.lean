import ApiTypes.Calendar
import ApiTypes.Decimal.Binary

/-!
# Values

The untyped data of a document. Mappings keep the order of their entries, and their keys are
scalars.
-/

namespace ApiTypes

inductive Scalar
  | null
  | bool (b : Bool)
  | int (n : Int)
  | float (x : Float)
  /-- What is no number. One that is written by its own word is always the same; any other one is
  known by the node it comes from. -/
  | nan (origin : Option Nat)
  | text (s : String)
  | date (d : Date)
  | dateTime (t : DateTime)
  | bytes (bs : List UInt8)

/-- A `link` stands where a container stands that has its place elsewhere. In a `Document` it is
the number of a cell; in a closed value it counts the containers around it, the nearest one being
`0`, so it marks a container inside itself. -/
inductive Value
  | scalar (s : Scalar)
  | seq (items : List Value)
  | tuple (items : List Value)
  | map (entries : List (Scalar × Value))
  | set (members : List Scalar)
  | link (n : Nat)

namespace Scalar

instance : Inhabited Scalar := ⟨null⟩

def ofFloat (node : Nat) (x : Float) : Scalar := if x.isNaN then nan (some node) else float x

def integer? : Scalar → Option Int
  | bool b => some (if b then 1 else 0)
  | int n => some n
  | float x => Decimal.integer? x
  | _ => none

/-- Numbers are one key when they are equal, whatever their kind; so are two points in time. What is
no number equals nothing but itself. -/
def sameKey : Scalar → Scalar → Bool
  | null, null => true
  | text s, text t => s == t
  | bytes s, bytes t => s == t
  | date d, date e => d == e
  | dateTime s, dateTime t => s.same t
  | float x, float y => x == y
  | nan a, nan b => a == b
  | s, t =>
    match s.integer?, t.integer? with
    | some m, some n => m == n
    | _, _ => false

instance : BEq Scalar := ⟨sameKey⟩

def rank : Scalar → Nat
  | null => 0
  | bool _ | int _ | float _ | nan _ => 1
  | text _ => 2
  | date _ => 3
  | dateTime _ => 4
  | bytes _ => 5

def toFloat : Scalar → Float
  | bool b => if b then 1 else 0
  | int n => Decimal.nearestInt n
  | float x => x
  | nan _ => 0.0 / 0.0
  | _ => 0

/-- The order of scalars: by kind, then by value. What is no number stays where it stands. -/
def precedes (s t : Scalar) : Bool :=
  if s.rank != t.rank then s.rank < t.rank
  else match s, t with
    | text a, text b => a ≤ b
    | date d, date e => d.dayNumber ≤ e.dayNumber
    | dateTime a, dateTime b => a.instant ≤ b.instant
    | bytes a, bytes b => a ≤ b
    | s, t =>
      match s.integer?, t.integer? with
      | some m, some n => m ≤ n
      | _, _ => !decide (t.toFloat < s.toFloat)

def isTruthy : Scalar → Bool
  | null => false
  | bool b => b
  | int n => n != 0
  | float x => x != 0
  | nan _ => true
  | text s => !s.isEmpty
  | bytes bs => !bs.isEmpty
  | date _ | dateTime _ => true

def text? : Scalar → Option String
  | text s => some s
  | _ => none

end Scalar

namespace Value

instance : Inhabited Value := ⟨scalar .null⟩

def null : Value := scalar .null

def isTruthy : Value → Bool
  | scalar s => s.isTruthy
  | seq items | tuple items => !items.isEmpty
  | map entries => !entries.isEmpty
  | set members => !members.isEmpty
  | link _ => true

def isNull : Value → Bool
  | scalar .null => true
  | _ => false

def text? : Value → Option String
  | scalar s => s.text?
  | _ => none

end Value

end ApiTypes
