/-!
# Dates and times

Days of the Gregorian calendar from year 1 to 9999, and points in time with an optional offset from
universal time in minutes.
-/

namespace ApiTypes

structure Date where
  year : Nat
  month : Nat
  day : Nat
  deriving Repr, DecidableEq

structure DateTime where
  date : Date
  hour : Nat
  minute : Nat
  second : Nat
  micro : Nat
  offset : Option Int
  deriving Repr, DecidableEq

namespace Date

def isLeap (year : Nat) : Bool := year % 4 == 0 && (year % 100 != 0 || year % 400 == 0)

def monthDays (year month : Nat) : Nat :=
  if month == 2 then if isLeap year then 29 else 28
  else if month == 4 || month == 6 || month == 9 || month == 11 then 30
  else 31

def ofParts? (year month day : Nat) : Option Date :=
  if 1 ≤ year && year ≤ 9999 && 1 ≤ month && month ≤ 12 && 1 ≤ day && day ≤ monthDays year month
  then some ⟨year, month, day⟩ else none

def dayNumber (d : Date) : Nat :=
  let y := d.year - 1
  let before := (List.range (d.month - 1)).foldl (fun n m => n + monthDays d.year (m + 1)) 0
  365 * y + y / 4 - y / 100 + y / 400 + before + (d.day - 1)

end Date

def zeroPadded (width n : Nat) : String :=
  let ds := Nat.toDigits 10 n
  String.ofList (List.replicate (width - ds.length) '0' ++ ds)

def Date.text (d : Date) : String :=
  zeroPadded 4 d.year ++ "-" ++ zeroPadded 2 d.month ++ "-" ++ zeroPadded 2 d.day

namespace DateTime

def ofParts? (date : Date) (hour minute second micro : Nat) (offset : Option Int) :
    Option DateTime :=
  if hour < 24 && minute < 60 && second < 60 && micro < 1000000 then
    some ⟨date, hour, minute, second, micro, offset⟩
  else none

def offsetText (minutes : Int) : String :=
  (if minutes < 0 then "-" else "+") ++ zeroPadded 2 (minutes.natAbs / 60) ++ ":" ++
    zeroPadded 2 (minutes.natAbs % 60)

def text (t : DateTime) : String :=
  t.date.text ++ " " ++ zeroPadded 2 t.hour ++ ":" ++ zeroPadded 2 t.minute ++ ":" ++
    zeroPadded 2 t.second ++ (if t.micro = 0 then "" else "." ++ zeroPadded 6 t.micro) ++
    (t.offset.map offsetText).getD ""

/-- Microseconds from the first day of year 1, universal time where an offset is known. -/
def instant (t : DateTime) : Int :=
  let minutes : Int := (t.date.dayNumber * 24 + t.hour) * 60 + t.minute - t.offset.getD 0
  (minutes * 60 + t.second) * 1000000 + t.micro

def same (s t : DateTime) : Bool :=
  s.offset.isSome == t.offset.isSome && s.instant == t.instant

end DateTime

end ApiTypes
