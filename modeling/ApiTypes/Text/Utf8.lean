/-!
# UTF-8

Bytes are read one at a time: a leading byte tells how many more its character has and what the
next one may be. Reading stops at the first byte that cannot stand where it stands.
-/

namespace ApiTypes.Text

inductive Utf8Reason
  | startByte
  | continuationByte
  | endOfData
  deriving Repr, DecidableEq

structure Utf8Fault where
  first : Nat
  last : Nat
  byte : UInt8
  reason : Utf8Reason
  deriving Repr, DecidableEq

def Utf8Reason.message : Utf8Reason → String
  | .startByte => "invalid start byte"
  | .continuationByte => "invalid continuation byte"
  | .endOfData => "unexpected end of data"

def Utf8Fault.message (f : Utf8Fault) : String :=
  let which :=
    if f.first = f.last then
      "byte 0x" ++ String.ofList (Nat.toDigits 16 f.byte.toNat) ++ " in position " ++
        toString f.first
    else "bytes in position " ++ toString f.first ++ "-" ++ toString f.last
  "'utf-8' codec can't decode " ++ which ++ ": " ++ f.reason.message

/-- A character part way through: the bytes still owed, the bounds of the next one, the bits so far,
and the byte it began with. -/
structure Utf8Part where
  owed : Nat
  low : Nat
  high : Nat
  bits : Nat
  first : Nat
  byte : UInt8

structure Utf8State where
  chars : List Char
  part : Option Utf8Part
  place : Nat

def utf8Lead? (place : Nat) (b : UInt8) : Option Utf8Part :=
  let n := b.toNat
  if 0xC2 ≤ n && n ≤ 0xDF then some ⟨1, 0x80, 0xBF, n % 0x20, place, b⟩
  else if n == 0xE0 then some ⟨2, 0xA0, 0xBF, 0, place, b⟩
  else if n == 0xED then some ⟨2, 0x80, 0x9F, n % 0x10, place, b⟩
  else if 0xE1 ≤ n && n ≤ 0xEF then some ⟨2, 0x80, 0xBF, n % 0x10, place, b⟩
  else if n == 0xF0 then some ⟨3, 0x90, 0xBF, 0, place, b⟩
  else if 0xF1 ≤ n && n ≤ 0xF3 then some ⟨3, 0x80, 0xBF, n % 8, place, b⟩
  else if n == 0xF4 then some ⟨3, 0x80, 0x8F, n % 8, place, b⟩
  else none

def Utf8State.step (s : Utf8State) (b : UInt8) : Except Utf8Fault Utf8State :=
  let next := s.place + 1
  match s.part with
  | none =>
    if b < 0x80 then .ok ⟨Char.ofNat b.toNat :: s.chars, none, next⟩
    else match utf8Lead? s.place b with
      | some part => .ok { s with part := some part, place := next }
      | none => .error ⟨s.place, s.place, b, .startByte⟩
  | some p =>
    if b.toNat < p.low || p.high < b.toNat then
      .error ⟨p.first, s.place - 1, p.byte, .continuationByte⟩
    else
      let bits := p.bits * 0x40 + b.toNat % 0x40
      if p.owed ≤ 1 then .ok ⟨Char.ofNat bits :: s.chars, none, next⟩
      else
        let part : Utf8Part := ⟨p.owed - 1, 0x80, 0xBF, bits, p.first, p.byte⟩
        .ok { s with part := some part, place := next }

def decodeUtf8 (bytes : List UInt8) : Except Utf8Fault (List Char) := do
  let s ← bytes.foldlM Utf8State.step ⟨[], none, 0⟩
  match s.part with
  | none => return s.chars.reverse
  | some p => throw ⟨p.first, s.place - 1, p.byte, .endOfData⟩

end ApiTypes.Text
