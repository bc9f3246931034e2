/-!
# Base 64

Four letters stand for three bytes. Characters outside the alphabet are passed over, and the text
ends at the padding that completes a group of four.
-/

namespace ApiTypes.Text

def base64Value? (c : Char) : Option Nat :=
  if c.isUpper then some (c.toNat - 'A'.toNat)
  else if c.isLower then some (c.toNat - 'a'.toNat + 26)
  else if c.isDigit then some (c.toNat - '0'.toNat + 52)
  else if c == '+' then some 62
  else if c == '/' then some 63
  else none

/-- Reads a text with `count` letters of a group taken, whose last bits are `bits`, and `pads` signs
of padding directly behind them. Nothing comes of a text that ends inside a group. -/
def decodeBase64 (count bits pads : Nat) : List Char → Option (List UInt8)
  | [] => if count = 0 then some [] else none
  | c :: cs =>
    if c == '=' then
      if 2 ≤ count then
        if 4 ≤ count + (pads + 1) then some [] else decodeBase64 count bits (pads + 1) cs
      else decodeBase64 count bits pads cs
    else match base64Value? c with
      | none => decodeBase64 count bits pads cs
      | some v =>
        match count with
        | 0 => decodeBase64 1 v 0 cs
        | 1 => (decodeBase64 2 (v % 16) 0 cs).map (UInt8.ofNat (bits * 4 + v / 16) :: ·)
        | 2 => (decodeBase64 3 (v % 4) 0 cs).map (UInt8.ofNat (bits * 16 + v / 4) :: ·)
        | _ => (decodeBase64 0 0 0 cs).map (UInt8.ofNat (bits * 64 + v) :: ·)

end ApiTypes.Text
