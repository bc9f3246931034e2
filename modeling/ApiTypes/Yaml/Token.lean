import ApiTypes.Text.Digit
import ApiTypes.Text.Utf8
import ApiTypes.Value.Inspect
import ApiTypes.Yaml.Cursor

/-!
# YAML tokens

The tokens of a text, and the reading of those that need no more than the characters in front:
directives, anchors, aliases and tags.
-/

namespace ApiTypes.Yaml

inductive Directive
  | version (major : Nat)
  | tagHandle (handle tagStart : String)
  | other
  deriving Repr, DecidableEq

inductive Token
  | directive (d : Directive)
  | documentStart
  | documentEnd
  | blockSeqStart
  | blockMapStart
  | blockEnd
  | flowSeqStart
  | flowMapStart
  | flowSeqEnd
  | flowMapEnd
  | blockEntry
  | flowEntry
  | key
  | value
  | aliasOf (name : String)
  | anchor (name : String)
  | tag (handle : Option String) (suffix : String)
  | text (s : String) (plain : Bool)
  /-- The text ends, or breaks off with a fault. -/
  | stop (fault : Option Fault)
  deriving Repr, DecidableEq

namespace Token

/-! ## Names -/

def readName (c : Cursor) : Except Fault (String × Cursor) :=
  let (name, c') := c.next.span isNameChar
  let ended := c'.peek.all fun ch => isGap ch || "?:,]\x7d%@\x60".toList.contains ch
  if name.isEmpty || !ended then .error .malformed else .ok (String.ofList name, c')

/-! ## Tags -/

def isUriChar (c : Char) : Bool :=
  c.isAlphanum || "-;/?:@&=+$,_.!~*'()[]%".toList.contains c

def hexByte? (a b : Char) : Option UInt8 := do
  let high ← Text.hexValue? a
  let low ← Text.hexValue? b
  pure (UInt8.ofNat (16 * high + low))

def percentBytes : List Char → Option (List UInt8 × List Char)
  | '%' :: a :: b :: rest => do
    let byte ← hexByte? a b
    let (bytes, rest') ← percentBytes rest
    pure (byte :: bytes, rest')
  | '%' :: _ => none
  | cs => some ([], cs)

def decodePercent : Nat → List Char → Option (List Char)
  | 0, _ => some []
  | _, [] => some []
  | fuel + 1, '%' :: rest => do
    let (bytes, rest') ← percentBytes ('%' :: rest)
    let chars ← (Text.decodeUtf8 bytes).toOption
    pure (chars ++ (← decodePercent fuel rest'))
  | fuel + 1, c :: rest => (decodePercent fuel rest).map (c :: ·)

def readUri (c : Cursor) : Except Fault (String × Cursor) :=
  let (run, c') := c.span isUriChar
  if run.isEmpty then .error .malformed
  else match decodePercent run.length run with
    | some cs => .ok (String.ofList cs, c')
    | none => .error .malformed

def readHandle (c : Cursor) : Except Fault (String × Cursor) :=
  if !c.sees '!' then .error .malformed
  else if c.peekAt 1 == some ' ' then .ok ("!", c.next)
  else
    let (name, c') := c.next.span isNameChar
    if c'.sees '!' then .ok (String.ofList ('!' :: name ++ ['!']), c'.next) else .error .malformed

def hasHandle (c : Cursor) : Bool :=
  (c.next.rest.takeWhile fun ch => ch != ' ' && !isBreak ch).contains '!'

def readTagParts (c : Cursor) : Except Fault (Option String × String × Cursor) := do
  match c.peekAt 1 with
  | some '<' =>
    let (uri, c) ← readUri (c.skip 2)
    if c.sees '>' then return (none, uri, c.next) else throw .malformed
  | ch =>
    if endsWord ch then return (none, "!", c.next)
    else
      let (handle, c) ← if hasHandle c then readHandle c else pure ("!", c.next)
      let (suffix, c) ← readUri c
      return (some handle, suffix, c)

def readTag (c : Cursor) : Except Fault (Token × Cursor) := do
  let (handle, suffix, c) ← readTagParts c
  if endsHead c.peek then return (.tag handle suffix, c) else throw .malformed

/-! ## Directives -/

def readNumber (c : Cursor) : Except Fault (Nat × Cursor) :=
  let (ds, c') := c.span Char.isDigit
  if ds.isEmpty then .error .malformed
  else if maxDigits < ds.length then .error (.scalar .digits)
  else .ok (Text.digitsValue ds, c')

def readVersion (c : Cursor) : Except Fault (Directive × Cursor) := do
  let (major, c) ← readNumber (c.skipWhile (· == ' '))
  if !c.sees '.' then throw .malformed
  let (_, c) ← readNumber c.next
  if endsHead c.peek then return (.version major, c) else throw .malformed

def readTagHandle (c : Cursor) : Except Fault (Directive × Cursor) := do
  let (handle, c) ← readHandle (c.skipWhile (· == ' '))
  if !c.sees ' ' then throw .malformed
  let (uri, c) ← readUri (c.skipWhile (· == ' '))
  if endsHead c.peek then return (.tagHandle handle uri, c) else throw .malformed

def readDirective (c : Cursor) : Except Fault (Token × Cursor) := do
  let (name, c) := c.next.span isNameChar
  if name.isEmpty || !endsHead c.peek then throw .malformed
  let (d, c) ←
    if name == "YAML".toList then readVersion c
    else if name == "TAG".toList then readTagHandle c
    else pure (.other, c.skipWhile (!isBreak ·))
  return (.directive d, ← c.finishLine)

end Token

end ApiTypes.Yaml
