import ApiTypes.Value.Basic
import ApiTypes.Text.Digit
import ApiTypes.Text.Line
import ApiTypes.Yaml.Fault

/-!
# Points in time

A date, or a date and a time of day with an optional offset from universal time. The form is read
first, and then the calendar decides whether there is such a day and time.
-/

namespace ApiTypes.Yaml

structure Clock where
  hour : List Char
  minute : List Char
  second : List Char
  fraction : List Char
  /-- The sign, hours and minutes of an offset; no sign stands for universal time. -/
  offset : Option (Option Char × List Char × List Char)

structure Time where
  year : List Char
  month : List Char
  day : List Char
  clock : Option Clock

namespace Time

def takeDigits (least greatest : Nat) (cs : List Char) : Option (List Char × List Char) :=
  let (ds, rest) := Text.spanDigits cs
  if least ≤ ds.length && ds.length ≤ greatest then some (ds, rest) else none

def takeMark (mark : Char) : List Char → Option (List Char)
  | [] => none
  | c :: cs => if c == mark then some cs else none

def isInset (c : Char) : Bool := c == ' ' || c == '\t'

def readOffset (cs : List Char) : Option (Option (Option Char × List Char × List Char)) :=
  match cs with
  | [] => some none
  | _ =>
    match cs.dropWhile isInset with
    | ['Z'] => some (some (none, [], []))
    | c :: rest =>
      if c == '-' || c == '+' then do
        let (hours, rest) ← takeDigits 1 2 rest
        match rest with
        | [] => some (some (some c, hours, []))
        | _ => do
          let (minutes, rest) ← takeDigits 2 2 (← takeMark ':' rest)
          if rest.isEmpty then some (some (some c, hours, minutes)) else none
      else none
    | [] => none

def readClock (cs : List Char) : Option Clock := do
  let (hour, cs) ← takeDigits 1 2 cs
  let (minute, cs) ← takeDigits 2 2 (← takeMark ':' cs)
  let (second, cs) ← takeDigits 2 2 (← takeMark ':' cs)
  let (fraction, cs) := match cs with
    | '.' :: rest => Text.spanDigits rest
    | cs => ([], cs)
  pure ⟨hour, minute, second, fraction, ← readOffset cs⟩

def behindDate : List Char → Option (List Char)
  | [] => none
  | c :: cs =>
    if c == 'T' || c == 't' then some cs
    else if isInset c then some (cs.dropWhile isInset)
    else none

def ofText? (cs : List Char) : Option Time := do
  let (year, cs) ← takeDigits 4 4 cs
  let (month, cs) ← takeDigits 1 2 (← takeMark '-' cs)
  let (day, cs) ← takeDigits 1 2 (← takeMark '-' cs)
  if cs.isEmpty then return ⟨year, month, day, none⟩
  return ⟨year, month, day, some (← readClock (← behindDate cs))⟩

/-- Whether a plain text of this form is a point in time: a date alone has all its digits. -/
def isPlain (t : Time) : Bool := t.clock.isSome || (t.month.length == 2 && t.day.length == 2)

def micros (fraction : List Char) : Nat :=
  let ds := fraction.take 6
  Text.digitsValue ds * Nat.pow 10 (6 - ds.length)

def offsetMinutes? (sign : Option Char) (hours minutes : List Char) : Option Int :=
  let n : Int := Text.digitsValue hours * 60 + Text.digitsValue minutes
  if n < 24 * 60 then some (if sign == some '-' then -n else n) else none

def clockValue? (date : Date) (c : Clock) : Option Scalar := do
  let offset ← match c.offset with
    | none => pure none
    | some (sign, hours, minutes) => (offsetMinutes? sign hours minutes).map some
  let t ← DateTime.ofParts? date (Text.digitsValue c.hour) (Text.digitsValue c.minute)
    (Text.digitsValue c.second) (micros c.fraction) offset
  pure (.dateTime t)

def value? (t : Time) : Option Scalar := do
  let date ← Date.ofParts? (Text.digitsValue t.year) (Text.digitsValue t.month)
    (Text.digitsValue t.day)
  match t.clock with
  | none => pure (.date date)
  | some c => clockValue? date c

def read (cs : List Char) : Except ScalarFault Scalar :=
  match ofText? (Text.withoutFinalLineFeed cs) with
  | none => .error .noTime
  | some t => (t.value?.map Except.ok).getD (.error .form)

end Time

end ApiTypes.Yaml
