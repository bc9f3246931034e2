import ApiTypes.Json.Token
import ApiTypes.Table

/-!
# Reading JSON

A machine over tokens, with the containers part way through held on a stack. It stops at the first
token that is not awaited.
-/

namespace ApiTypes.Json

inductive Frame
  | seq (items : List Value)
  | map (entries : List (Scalar × Value)) (key : Scalar)

inductive Awaited
  | value
  /-- The first item of a sequence, or its end. -/
  | item
  /-- The first key of a mapping, or its end. -/
  | firstKey
  | key
  | colon
  | separator
  | nothing

structure Reader where
  frames : List Frame
  awaited : Awaited
  result : Value

def Reader.start : Reader := ⟨[], .value, .null⟩

def Reader.accept (r : Reader) (v : Value) : Reader :=
  match r.frames with
  | [] => { r with awaited := .nothing, result := v }
  | .seq items :: below => { r with frames := .seq (v :: items) :: below, awaited := .separator }
  | .map entries key :: below =>
    { r with frames := .map ((key, v) :: entries) key :: below, awaited := .separator }

def Reader.closeSeq (r : Reader) : Option Reader :=
  match r.frames with
  | .seq items :: below => some ({ r with frames := below }.accept (.seq items.reverse))
  | _ => none

/-- A key written twice keeps its first place and its last value. -/
def Reader.closeMap (r : Reader) : Option Reader :=
  match r.frames with
  | .map entries _ :: below =>
    some ({ r with frames := below }.accept (.map (Table.ofList entries.reverse)))
  | _ => none

def Reader.separate (r : Reader) : Reader :=
  match r.frames with
  | .map .. :: _ => { r with awaited := .key }
  | _ => { r with awaited := .value }

def Reader.setKey (r : Reader) (key : Scalar) : Reader :=
  match r.frames with
  | .map entries _ :: below => { r with frames := .map entries key :: below, awaited := .colon }
  | _ => r

def Reader.readValue (r : Reader) (place : Nat) : Token → Except Fault Reader
  | .leaf s => .ok (r.accept (.scalar s))
  | .openSeq => .ok { r with frames := .seq [] :: r.frames, awaited := .item }
  | .openMap => .ok { r with frames := .map [] .null :: r.frames, awaited := .firstKey }
  | .broken fault => .error fault
  | _ => .error (.syntaxError .value place)

def Reader.readKey (r : Reader) (place : Nat) : Token → Except Fault Reader
  | .leaf (.text s) => .ok (r.setKey (.text s))
  | .broken (.syntaxError reason p) => .error (.syntaxError reason p)
  | _ => .error (.syntaxError .propertyName place)

def Reader.step (r : Reader) (t : Nat × Token) : Except Fault Reader :=
  let (place, token) := t
  match r.awaited, token with
  | .value, _ => r.readValue place token
  | .item, .closeSeq => .ok (r.closeSeq.getD r)
  | .item, _ => r.readValue place token
  | .firstKey, .closeMap => .ok (r.closeMap.getD r)
  | .firstKey, _ => r.readKey place token
  | .key, _ => r.readKey place token
  | .colon, .colon => .ok { r with awaited := .value }
  | .colon, _ => .error (.syntaxError .colon place)
  | .separator, .comma => .ok r.separate
  | .separator, .closeSeq =>
    (r.closeSeq.map Except.ok).getD (.error (.syntaxError .comma place))
  | .separator, .closeMap =>
    (r.closeMap.map Except.ok).getD (.error (.syntaxError .comma place))
  | .separator, _ => .error (.syntaxError .comma place)
  | .nothing, .stop => .ok r
  | .nothing, _ => .error (.syntaxError .extra place)

def read (digitLimit : Option Nat) (cs : List Char) : Except Fault Value :=
  if cs.head? == some '\uFEFF' then .error (.syntaxError .byteOrderMark 0)
  else ((tokens digitLimit cs).foldlM Reader.step .start).map (·.result)

/-! ## Places in a text -/

def placeText (cs : List Char) (place : Nat) : String :=
  let before := cs.take place
  let line := before.count '\n' + 1
  let column := (before.reverse.takeWhile (· != '\n')).length + 1
  "line " ++ toString line ++ " column " ++ toString column ++ " (char " ++ toString place ++ ")"

end ApiTypes.Json
