import ApiTypes.Text.Digit
import ApiTypes.Value.Basic

/-!
# JSON tokens

A text is cut into brackets, separators and scalars, each with its place. A fault inside a token
becomes a token of its own: whether it is reported depends on what is awaited there.
-/

namespace ApiTypes.Json

inductive Reason
  | byteOrderMark
  | value
  | propertyName
  | colon
  | comma
  | extra
  | unterminated
  | controlCharacter
  | escape
  | unicodeEscape
  deriving Repr, DecidableEq

def Reason.message : Reason → String
  | .byteOrderMark => "Unexpected UTF-8 BOM (decode using utf-8-sig)"
  | .value => "Expecting value"
  | .propertyName => "Expecting property name enclosed in double quotes"
  | .colon => "Expecting ':' delimiter"
  | .comma => "Expecting ',' delimiter"
  | .extra => "Extra data"
  | .unterminated => "Unterminated string starting at"
  | .controlCharacter => "Invalid control character at"
  | .escape => "Invalid \\escape"
  | .unicodeEscape => "Invalid \\uXXXX escape"

inductive Fault
  | syntaxError (reason : Reason) (place : Nat)
  | tooLong
  deriving Repr, DecidableEq

inductive Token
  | openMap
  | closeMap
  | openSeq
  | closeSeq
  | colon
  | comma
  | leaf (s : Scalar)
  | broken (fault : Fault)
  | other
  | stop

/-! ## Quoted text -/

/-- The characters up to the closing quote, and whether there is one. The characters so far come
first, the last one at the front; the flag tells that it is a backslash. -/
def quotedBody (body : List Char) : Bool → List Char → List Char × Bool
  | _, [] => (body.reverse, false)
  | true, c :: cs => quotedBody (c :: body) false cs
  | false, c :: cs =>
    if c == '"' then (body.reverse, true) else quotedBody (c :: body) (c == '\\') cs

inductive Escape
  | none
  | backslash
  /-- Behind `digits` digits of a code unit, after an escape that began at `place`. -/
  | unit (digits value place : Nat)
  | unitDone (place : Nat)

structure Unquoting where
  units : List Nat
  escape : Escape
  place : Nat

def escaped? (c : Char) : Option Nat :=
  if c == '"' || c == '\\' || c == '/' then some c.toNat
  else if c == 'b' then some 8
  else if c == 'f' then some 12
  else if c == 'n' then some 10
  else if c == 'r' then some 13
  else if c == 't' then some 9
  else none

def Unquoting.step (u : Unquoting) (c : Char) : Except Fault Unquoting :=
  let next := u.place + 1
  match u.escape with
  | .none | .unitDone _ =>
    if c == '\\' then .ok { u with escape := .backslash, place := next }
    else if c.toNat < 32 then .error (.syntaxError .controlCharacter u.place)
    else .ok ⟨c.toNat :: u.units, .none, next⟩
  | .backslash =>
    if c == 'u' then .ok { u with escape := .unit 0 0 u.place, place := next }
    else match escaped? c with
      | some n => .ok ⟨n :: u.units, .none, next⟩
      | none => .error (.syntaxError .escape (u.place - 1))
  | .unit digits value place =>
    match Text.hexValue? c with
    | none => .error (.syntaxError .unicodeEscape place)
    | some d =>
      if digits = 3 then .ok ⟨(16 * value + d) :: u.units, .unitDone place, next⟩
      else .ok { u with escape := .unit (digits + 1) (16 * value + d) place, place := next }

/-- Two surrogates in a row make one character; one alone is replaced. -/
def joinSurrogates : List Nat → List Char
  | [] => []
  | [n] => [if 0xD800 ≤ n && n < 0xE000 then '\uFFFD' else Char.ofNat n]
  | high :: low :: rest =>
    if 0xD800 ≤ high && high < 0xDC00 && 0xDC00 ≤ low && low < 0xE000 then
      Char.ofNat (0x10000 + (high - 0xD800) * 0x400 + (low - 0xDC00)) :: joinSurrogates rest
    else
      (if 0xD800 ≤ high && high < 0xE000 then '\uFFFD' else Char.ofNat high) ::
        joinSurrogates (low :: rest)

/-- The text between two quotes, the first of them at `place`. A code unit needs a character behind
it even where the closing quote is missing. -/
def unquote (place : Nat) (body : List Char) (closed : Bool) : Except Fault String := do
  let u ← body.foldlM Unquoting.step ⟨[], .none, place + 1⟩
  match closed, u.escape with
  | _, .unit _ _ start | false, .unitDone start => throw (.syntaxError .unicodeEscape start)
  | true, _ => return String.ofList (joinSurrogates u.units.reverse)
  | false, _ => throw (.syntaxError .unterminated place)

/-! ## Numbers -/

def readFraction (cs : List Char) : List Char × List Char :=
  match cs with
  | '.' :: rest =>
    let (ds, rest') := Text.spanDigits rest
    if ds.isEmpty then ([], cs) else (ds, rest')
  | _ => ([], cs)

def readExponent (cs : List Char) : Option Int × List Char :=
  match cs with
  | e :: rest =>
    if e == 'e' || e == 'E' then
      let (negative, rest') := match rest with
        | '-' :: r => (true, r)
        | '+' :: r => (false, r)
        | r => (false, r)
      let (ds, rest'') := Text.spanDigits rest'
      if ds.isEmpty then (none, cs)
      else
        let n : Int := Text.digitsValue ds
        (some (if negative then -n else n), rest'')
    else (none, cs)
  | [] => (none, cs)

/-- A number without its sign, and what follows it: a whole part without superfluous zeros, and an
optional fraction and exponent, either of which makes it a float. -/
def readNumber (digitLimit : Option Nat) (negative : Bool) (cs : List Char) :
    Option (Token × List Char) :=
  let (whole, rest) := match cs with
    | '0' :: r => (['0'], r)
    | cs => Text.spanDigits cs
  if whole.isEmpty then none
  else
    let (fraction, rest) := readFraction rest
    let (exponent, rest) := readExponent rest
    let token :=
      if fraction.isEmpty && exponent.isNone then
        if digitLimit.any (· < whole.length) then .broken .tooLong
        else
          let n : Int := Text.digitsValue whole
          .leaf (.int (if negative then -n else n))
      else
        let d : Decimal := ⟨Text.digitsValue (whole ++ fraction), exponent.getD 0 - fraction.length⟩
        .leaf (.float (d.toFloat negative))
    some (token, rest)

def isNumberChar (c : Char) : Bool := c.isDigit || "+-.eE".toList.contains c

def numberToken? (digitLimit : Option Nat) (cs : List Char) : Option (Token × Nat) :=
  let run := cs.takeWhile isNumberChar
  let number := match run with
    | '-' :: ds => readNumber digitLimit true ds
    | ds => readNumber digitLimit false ds
  number.map fun (token, rest) => (token, run.length - rest.length)

/-! ## Cutting a text -/

def isSpace (c : Char) : Bool := c == ' ' || c == '\t' || c == '\n' || c == '\r'

def constants : List (String × Scalar) :=
  [("null", .null), ("true", .bool true), ("false", .bool false), ("NaN", .nan none),
    ("Infinity", .float (1.0 / 0.0)), ("-Infinity", .float (-1.0 / 0.0))]

def constantToken? (cs : List Char) : Option (Token × Nat) :=
  constants.findSome? fun (word, s) =>
    if word.toList.isPrefixOf cs then some (.leaf s, word.length) else none

def quotedToken (place : Nat) (cs : List Char) : Token × Nat :=
  let (body, closed) := quotedBody [] false cs
  let token := match unquote place body closed with
    | .ok s => .leaf (.text s)
    | .error fault => .broken fault
  (token, body.length + if closed then 2 else 1)

def readToken (digitLimit : Option Nat) (place : Nat) (c : Char) (cs : List Char) : Token × Nat :=
  if c == '\x7b' then (.openMap, 1)
  else if c == '\x7d' then (.closeMap, 1)
  else if c == '[' then (.openSeq, 1)
  else if c == ']' then (.closeSeq, 1)
  else if c == ':' then (.colon, 1)
  else if c == ',' then (.comma, 1)
  else if c == '"' then quotedToken place cs
  else ((constantToken? (c :: cs)).or (numberToken? digitLimit (c :: cs))).getD (.other, 1)

/-- The tokens of a text that starts at `place`, with their places. Each token takes at least one
character, so `fuel` is never less than the characters left. -/
def cut (digitLimit : Option Nat) : Nat → Nat → List Char → List (Nat × Token)
  | 0, place, _ => [(place, .stop)]
  | fuel + 1, place, cs =>
    let place := place + (cs.takeWhile isSpace).length
    match cs.dropWhile isSpace with
    | [] => [(place, .stop)]
    | c :: rest =>
      let (token, length) := readToken digitLimit place c rest
      (place, token) :: cut digitLimit fuel (place + length) (rest.drop (length - 1))

def tokens (digitLimit : Option Nat) (cs : List Char) : List (Nat × Token) :=
  cut digitLimit cs.length 0 cs

end ApiTypes.Json
