import ApiTypes.Decimal.Shortest

/-!
# Text of decimals

The shortest decimal of a double, written with a point and at least one digit on both sides of it,
or with an exponent where the number is small or large.
-/

namespace ApiTypes.Decimal

/-- How decimals are laid out: the exponents of the first digit that are written by position, and
the least number of digits of a written exponent. -/
structure Layout where
  least : Int
  greatest : Int
  exponentDigits : Nat

def layout : Layout := ⟨-4, 15, 2⟩

def padLeft (width : Nat) (ds : List Char) : List Char :=
  List.replicate (width - ds.length) '0' ++ ds

def positional (ds : List Char) (e : Int) : List Char :=
  if e < 0 then '0' :: '.' :: (List.replicate (-e - 1).toNat '0' ++ ds)
  else
    let whole := e.toNat + 1
    let rest := ds.drop whole
    ds.take whole ++ List.replicate (whole - ds.length) '0' ++
      ('.' :: if rest.isEmpty then ['0'] else rest)

def scientific (exponentDigits : Nat) (ds : List Char) (e : Int) : List Char :=
  let mantissa := match ds with
    | d :: d' :: rest => d :: '.' :: d' :: rest
    | ds => ds
  mantissa ++ 'e' :: (if e < 0 then '-' else '+') ::
    padLeft exponentDigits (Nat.toDigits 10 e.natAbs)

def text (d : Decimal) : List Char :=
  let ds := Nat.toDigits 10 d.digits
  let e := d.exponent + ds.length - 1
  let ds := (ds.reverse.dropWhile (· == '0')).reverse
  if layout.least ≤ e && e ≤ layout.greatest then positional ds e
  else scientific layout.exponentDigits ds e

def floatText (infinity : String) (x : Float) : String :=
  let negative := x.toBits.toNat / Nat.pow 2 63 = 1
  let size :=
    if x.isInf then infinity
    else if x == 0 then "0.0"
    else String.ofList (shortest (.ofFloat x)).text
  if negative then "-" ++ size else size

end ApiTypes.Decimal
