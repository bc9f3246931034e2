import ApiTypes.Text.Blank
import ApiTypes.Text.Digit
import ApiTypes.Text.Line
import ApiTypes.Value.Json
import ApiTypes.Yaml.Fault

/-!
# Numbers

The values of integers and floats. Underscores are left out, digits may be of any script, and colons
separate the places of a number to the base of sixty.
-/

namespace ApiTypes.Yaml.Number

def plainDigit (c : Char) : Char :=
  match Text.digitValue? c with
  | some d => Nat.digitChar d
  | none => c

/-- A blank that may stand around a number, which the separators below the space may not. -/
def isBlank (c : Char) : Bool := Text.isBlank c && !(28 ≤ c.toNat && c.toNat ≤ 31)

def normalize (cs : List Char) : List Char :=
  (((cs.dropWhile isBlank).reverse.dropWhile isBlank).reverse).map plainDigit

def splitSign : List Char → Bool × List Char
  | '-' :: cs => (true, cs)
  | '+' :: cs => (false, cs)
  | cs => (false, cs)

def digitBelow? (base : Nat) (c : Char) : Option Nat :=
  (Text.hexValue? c).filter (· < base)

def basePrefix (base : Nat) (cs : List Char) : Bool :=
  match base, cs with
  | 2, ['0', c] => c == 'b' || c == 'B'
  | 8, ['0', c] => c == 'o' || c == 'O'
  | 16, ['0', c] => c == 'x' || c == 'X'
  | _, _ => false

def digitsValue? (base : Nat) (ds : List Char) : Option Nat :=
  if ds.isEmpty then none
  else ds.foldlM (fun n c => (digitBelow? base c).map (base * n + ·)) 0

def readInt (base : Nat) (cs : List Char) : Except ScalarFault Int :=
  let (negative, cs) := splitSign (normalize cs)
  let ds := if basePrefix base (cs.take 2) then cs.drop 2 else cs
  match digitsValue? base ds with
  | none => .error .form
  | some n =>
    if base = 10 && maxDigits < ds.length then .error .digits
    else .ok (if negative then -n else n)

def int (s : String) : Except ScalarFault Int := do
  let cs := s.toList.filter (· != '_')
  if cs.isEmpty then throw .empty
  let (negative, cs) := splitSign cs
  let n ← match cs with
    | [] => throw .empty
    | ['0'] => pure 0
    | '0' :: 'b' :: ds => readInt 2 ds
    | '0' :: 'x' :: ds => readInt 16 ds
    | '0' :: _ => readInt 8 cs
    | _ =>
      if cs.contains ':' then do
        let ns ← (Text.pieces (· == ':') cs).mapM (readInt 10)
        pure (ns.foldl (fun n d => 60 * n + d) 0)
      else readInt 10 cs
  return if negative then -n else n

/-! ## Floats -/

def floatWord? (cs : List Char) : Option Float :=
  if cs == "inf".toList || cs == "infinity".toList then some (1.0 / 0.0)
  else if cs == "nan".toList then some (0.0 / 0.0)
  else none

def readExponent : List Char → Option Int
  | [] => some 0
  | e :: cs =>
    let (negative, ds) := splitSign cs
    if e != 'e' || !ds.all Char.isDigit then none
    else (digitsValue? 10 ds).map fun n => if negative then -(n : Int) else n

def readDecimal (cs : List Char) : Option Decimal :=
  let (whole, rest) := Text.spanDigits cs
  let (fraction, rest) := match rest with
    | '.' :: r => Text.spanDigits r
    | r => ([], r)
  if whole.isEmpty && fraction.isEmpty then none
  else (readExponent rest).map fun e => ⟨Text.digitsValue (whole ++ fraction), e - fraction.length⟩

def readFloat (cs : List Char) : Except ScalarFault Float :=
  let (negative, cs) := splitSign (normalize cs)
  match floatWord? cs, readDecimal cs with
  | some x, _ => .ok (if negative then -x else x)
  | none, some d => .ok (d.toFloat negative)
  | none, none => .error .form

/-- Adds up places, the last one first, each worth sixty times the one before. A place may not be
worth more than a double holds. -/
def sumPlaces (total : Float) (unit : Int) : List Float → Except ScalarFault Float
  | [] => .ok total
  | x :: xs =>
    let worth := Decimal.nearestInt unit
    if worth.isFinite then sumPlaces (total + x * worth) (60 * unit) xs else .error .size

/-- The float that the text of a node writes. What is no number has a word of its own. -/
def float (node : Nat) (s : String) : Except ScalarFault Scalar := do
  let cs := (s.toList.filter (· != '_')).map Char.toLower
  if cs.isEmpty then throw .empty
  let (negative, cs) := splitSign cs
  if cs == ".nan".toList then return .nan none
  let x ←
    if cs == ".inf".toList then pure (1.0 / 0.0)
    else if cs.contains ':' then do
      let xs ← (Text.pieces (· == ':') cs).mapM readFloat
      sumPlaces 0.0 1 xs.reverse
    else readFloat cs
  return .ofFloat node (if negative then -x else x)

end ApiTypes.Yaml.Number
