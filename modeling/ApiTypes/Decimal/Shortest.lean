import ApiTypes.Decimal.Binary

/-!
# Shortest decimals

`shortest b` has the fewest digits of all decimals that round to the double `b`, and is the nearest
to `b` of those. For each number of digits only the two neighbours of `b` on the decimal grid can
be such a decimal.
-/

namespace ApiTypes.Decimal

def compareQuotient (d : Decimal) (num den : Nat) : Ordering :=
  if 0 ≤ d.exponent then compare (d.digits * Nat.pow 10 d.exponent.toNat * den) num
  else compare (d.digits * den) (num * Nat.pow 10 (-d.exponent).toNat)

def gridBelow (num den : Nat) (p : Int) : Nat :=
  if 0 ≤ p then num / (den * Nat.pow 10 p.toNat) else num * Nat.pow 10 (-p).toNat / den

/-- The reals that round to one double: a quarter of its last place is the unit, and the ends belong
to it when the significand is even. -/
structure Rounding where
  low : Nat
  value : Nat
  high : Nat
  den : Nat
  closed : Bool

def Binary.rounding (b : Binary) : Rounding :=
  let gap := if b.significand = Nat.pow 2 52 && b.exponent != -1074 then 1 else 2
  let e := b.exponent - 2
  let unit := if 0 ≤ e then Nat.pow 2 e.toNat else 1
  { low := (4 * b.significand - gap) * unit
    value := 4 * b.significand * unit
    high := (4 * b.significand + 2) * unit
    den := if 0 ≤ e then 1 else Nat.pow 2 (-e).toNat
    closed := b.significand % 2 = 0 }

def Rounding.holds (r : Rounding) (d : Decimal) : Bool :=
  match d.compareQuotient r.low r.den, d.compareQuotient r.high r.den with
  | .gt, .lt => true
  | .eq, _ | _, .eq => r.closed
  | _, _ => false

/-- The decimal on the grid of `10 ^ p` that rounds to the double and is nearest to it; of two
equally near ones the even. -/
def Rounding.onGrid? (r : Rounding) (p : Int) : Option Decimal :=
  let c := gridBelow r.value r.den p
  let down : Decimal := ⟨c, p⟩
  let up : Decimal := ⟨c + 1, p⟩
  match r.holds down, r.holds up with
  | true, false => some down
  | false, true => some up
  | false, false => none
  | true, true =>
    match (⟨2 * c + 1, p⟩ : Decimal).compareQuotient (2 * r.value) r.den with
    | .gt => some down
    | .lt => some up
    | .eq => some (if c % 2 = 0 then down else up)

/-- The greatest `e` with `10 ^ e ≤ num / den`, from an estimate that is off by at most one. -/
def decimalExponent (num den : Nat) : Int :=
  let e := (binaryExponent num den * 30103) / 100000
  let fits (e : Int) : Bool := (⟨1, e⟩ : Decimal).compareQuotient num den != .gt
  if fits (e + 1) then e + 1 else if fits e then e else e - 1

def shortest (b : Binary) : Decimal :=
  let r := b.rounding
  let e := decimalExponent r.value r.den
  ((List.range 17).findSome? fun (n : Nat) => r.onGrid? (e - n)).getD ⟨0, 0⟩

end ApiTypes.Decimal
