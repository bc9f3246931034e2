/-!
# Binary numbers

A finite double without its sign is a natural number times a power of two. `nearest` rounds a
quotient of naturals to such a number, half to even.
-/

namespace ApiTypes

/-- The number `digits * 10 ^ exponent`. -/
structure Decimal where
  digits : Nat
  exponent : Int
  deriving Repr, DecidableEq

namespace Decimal

/-- The number `significand * 2 ^ exponent`. -/
structure Binary where
  significand : Nat
  exponent : Int
  deriving Repr, DecidableEq

def Binary.ofBits (bits : Nat) : Binary :=
  let fraction := bits % Nat.pow 2 52
  let e : Nat := bits / Nat.pow 2 52 % Nat.pow 2 11
  if e = 0 then ⟨fraction, -1074⟩ else ⟨Nat.pow 2 52 + fraction, (e : Int) - 1075⟩

def Binary.ofFloat (x : Float) : Binary := .ofBits x.toBits.toNat

/-- The quotient rounded to a natural number, a half to the even neighbour. -/
def roundQuotient (num den : Nat) : Nat :=
  let q := num / den
  let twice := 2 * (num % den)
  if twice < den then q else if den < twice then q + 1 else if q % 2 = 0 then q else q + 1

def roundAt (num den : Nat) (e : Int) : Nat :=
  if 0 ≤ e then roundQuotient num (den * Nat.pow 2 e.toNat)
  else roundQuotient (num * Nat.pow 2 (-e).toNat) den

def reaches (num den : Nat) (e : Int) : Bool :=
  if 0 ≤ e then den * Nat.pow 2 e.toNat ≤ num else den ≤ num * Nat.pow 2 (-e).toNat

def binaryExponent (num den : Nat) : Int :=
  let e : Int := (num.log2 : Int) - den.log2
  if reaches num den e then e else e - 1

def infinityBits : Nat := 2047 * Nat.pow 2 52

/-- The bits of the double nearest to `num / den`. A significand that rounds up to the next power
of two carries into the exponent bits. -/
def nearestBits (num den : Nat) : Nat :=
  if num = 0 then 0
  else
    let e := max (binaryExponent num den - 52) (-1074)
    min infinityBits ((e + 1074).toNat * Nat.pow 2 52 + roundAt num den e)

/-- The double nearest to a decimal, or to its negative. Exponents far outside the range of doubles
are decided without computing the power. -/
def toFloat (d : Decimal) (negative : Bool) : Float :=
  let places : Int := d.digits.log2 / 3 + 1
  let bits :=
    if d.digits = 0 || places + d.exponent < -400 then 0
    else if 400 < d.exponent then infinityBits
    else if 0 ≤ d.exponent then nearestBits (d.digits * Nat.pow 10 d.exponent.toNat) 1
    else nearestBits d.digits (Nat.pow 10 (-d.exponent).toNat)
  Float.ofBits (UInt64.ofNat (if negative then Nat.pow 2 63 + bits else bits))

def nearestInt (n : Int) : Float := toFloat ⟨n.natAbs, 0⟩ (n < 0)

def integer? (x : Float) : Option Int :=
  if !x.isFinite then none
  else
    let b := Binary.ofFloat x
    let size :=
      if 0 ≤ b.exponent then some (b.significand * Nat.pow 2 b.exponent.toNat)
      else
        let unit := Nat.pow 2 (-b.exponent).toNat
        if b.significand % unit = 0 then some (b.significand / unit) else none
    size.map fun n => if x < 0 then -(n : Int) else n

end Decimal

end ApiTypes
