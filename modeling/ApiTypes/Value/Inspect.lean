import ApiTypes.Value.Order
import ApiTypes.Decimal.Text
import ApiTypes.Text.Printable
import ApiTypes.Text.Quoted

/-!
# Values as messages show them

`inspect` writes a value so that its kind can be told: a text stands between single quotes, or
between double quotes where that saves escapes. `display` writes a text as it is. A value with an
integer of too many digits has no written form, and `fault?` finds it.
-/

namespace ApiTypes

/-! ## Texts -/

def quoteFor (cs : List Char) : Char := if cs.contains '\'' && !cs.contains '"' then '"' else '\''

def inspectChar (quote c : Char) : List Char :=
  let n := c.toNat
  if c == quote || c == '\\' then ['\\', c]
  else if c == '\n' then ['\\', 'n']
  else if c == '\r' then ['\\', 'r']
  else if c == '\t' then ['\\', 't']
  else if Text.isPrintable c then [c]
  else if n < 0x100 then '\\' :: 'x' :: Text.hexDigits 2 n
  else if n < 0x10000 then '\\' :: 'u' :: Text.hexDigits 4 n
  else '\\' :: 'U' :: Text.hexDigits 8 n

def inspectText (s : String) : String :=
  let q := quoteFor s.toList
  String.ofList (q :: s.toList.flatMap (inspectChar q) ++ [q])

def inspectByte (quote : Char) (b : UInt8) : List Char :=
  if b < 128 then inspectChar quote (Char.ofNat b.toNat)
  else '\\' :: 'x' :: Text.hexDigits 2 b.toNat

def inspectBytes (bs : List UInt8) : String :=
  let q := quoteFor (bs.map fun b => Char.ofNat b.toNat)
  String.ofList ('b' :: q :: bs.flatMap (inspectByte q) ++ [q])

def Date.parts (d : Date) : List String := [toString d.year, toString d.month, toString d.day]

def inspectDate (d : Date) : String := "datetime.date(" ++ String.intercalate ", " d.parts ++ ")"

def inspectOffset (minutes : Int) : String :=
  if minutes = 0 then "datetime.timezone.utc"
  else
    let days := if minutes < 0 then "days=-1, " else ""
    let seconds := (minutes * 60) % 86400
    "datetime.timezone(datetime.timedelta(" ++ days ++ "seconds=" ++ toString seconds ++ "))"

def inspectDateTime (t : DateTime) : String :=
  let fine :=
    if t.micro != 0 then [toString t.second, toString t.micro]
    else if t.second != 0 then [toString t.second]
    else []
  let offset := (t.offset.map fun o => ["tzinfo=" ++ inspectOffset o]).getD []
  "datetime.datetime(" ++ String.intercalate ", "
    (t.date.parts ++ [toString t.hour, toString t.minute] ++ fine ++ offset) ++ ")"

/-! ## Scalars -/

def Scalar.inspect : Scalar → String
  | null => "None"
  | bool b => if b then "True" else "False"
  | int n => toString n
  | float x => Decimal.floatText "inf" x
  | nan _ => "nan"
  | text s => inspectText s
  | date d => inspectDate d
  | dateTime t => inspectDateTime t
  | bytes bs => inspectBytes bs

def Scalar.display : Scalar → String
  | text s => s
  | date d => d.text
  | dateTime t => t.text
  | s => s.inspect

inductive WriteFault
  | keyKind (kind : String)
  | cycle
  | tooLong
  deriving Repr, DecidableEq

/-- Decimal digits that an integer may have where it is read or written in decimal. -/
def maxDigits : Nat := 4300

def isTooLong (n : Int) : Bool := Nat.pow 10 maxDigits ≤ n.natAbs

def Scalar.fault? : Scalar → Option WriteFault
  | int n => if isTooLong n then some .tooLong else none
  | _ => none

def Scalar.written (s : Scalar) : Except WriteFault String :=
  match s.fault? with
  | some fault => .error fault
  | none => .ok s.display

/-! ## Values -/

namespace Value

def bracketed (opening closing : String) (items : List String) : String :=
  opening ++ String.intercalate ", " items ++ closing

mutual

/-- Shows a closed value inside containers that are each named by how they are shown again inside
themselves, the nearest one first. -/
def inspectIn (outer : List String) : Value → String
  | scalar s => s.inspect
  | seq items => bracketed "[" "]" (inspectItems ("[...]" :: outer) items)
  | tuple items =>
    bracketed "(" (if items.length = 1 then ",)" else ")") (inspectItems ("(...)" :: outer) items)
  | map entries => bracketed "\x7b" "\x7d" (inspectEntries ("\x7b...\x7d" :: outer) entries)
  | set members =>
    if members.isEmpty then "set()"
    else bracketed "\x7b" "\x7d" ((Scalar.listed members).map Scalar.inspect)
  | link n => (outer[n]?).getD "..."

def inspectItems (outer : List String) : List Value → List String
  | [] => []
  | v :: vs => inspectIn outer v :: inspectItems outer vs

def inspectEntries (outer : List String) : List (Scalar × Value) → List String
  | [] => []
  | (k, v) :: rest => (k.inspect ++ ": " ++ inspectIn outer v) :: inspectEntries outer rest

end

def inspect (v : Value) : String := inspectIn [] v

def display : Value → String
  | scalar s => s.display
  | v => v.inspect

mutual

def fault? : Value → Option WriteFault
  | scalar s => s.fault?
  | seq items | tuple items => itemsFault? items
  | map entries => entriesFault? entries
  | set members => members.findSome? Scalar.fault?
  | link _ => none

def itemsFault? : List Value → Option WriteFault
  | [] => none
  | v :: vs => v.fault? <|> itemsFault? vs

def entriesFault? : List (Scalar × Value) → Option WriteFault
  | [] => none
  | (k, v) :: rest => k.fault? <|> v.fault? <|> entriesFault? rest

end

end Value

end ApiTypes
