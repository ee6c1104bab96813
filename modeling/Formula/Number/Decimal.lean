import Formula.Number.Double

/-! Decimal numbers, and the double nearest to one. A double is named by its bits here, so
that everything is arithmetic on naturals: `nearestBits n d` are the bits of the double
nearest to `n / d`, ties going to the even one. -/

namespace Formula.Number

/-- The number `coefficient * 10 ^ exponent`. -/
structure Decimal where
  coefficient : Nat
  exponent : Int
deriving Repr, DecidableEq

def roundQuotient (n d : Nat) : Nat :=
  let q := n / d
  let r := n % d
  if 2 * r < d then q else if d < 2 * r then q + 1 else q + q % 2

/-- The integer `e` with `2 ^ e ≤ n / d < 2 ^ (e + 1)`. -/
def binade (n d : Nat) : Int :=
  let e : Int := (n.log2 : Int) - d.log2
  if d * Nat.pow 2 e.toNat ≤ n * Nat.pow 2 (-e).toNat then e else e - 1

/-- The bits of the double nearest to `n / d`. The number is measured in units `2 ^ u`, where
`u` is the weight of the last bit of a double of this size, but at least the weight of the
smallest double. Written this way a carry into the next binade needs no case of its own. -/
def nearestBits (n d : Nat) : Nat :=
  if n = 0 then 0
  else
    let u : Int := max (binade n d - 52) (-1074)
    let steps := roundQuotient (n * Nat.pow 2 (-u).toNat) (d * Nat.pow 2 u.toNat)
    min ((u + 1074).toNat * binadeSize + steps) infinityBits

namespace Decimal

def numerator (x : Decimal) : Nat := x.coefficient * Nat.pow 10 x.exponent.toNat

def denominator (x : Decimal) : Nat := Nat.pow 10 (-x.exponent).toNat

/-- The bits of the nearest double. Exponents far outside the range of doubles are answered
without computing the power. -/
def bits (x : Decimal) : Nat :=
  if x.coefficient = 0 then 0
  else if 400 < x.exponent then infinityBits
  else if (x.coefficient.log2 : Int) + 1100 < -3 * x.exponent then 0
  else nearestBits x.numerator x.denominator

def toFloat (x : Decimal) : Float := Float.ofBits (UInt64.ofNat x.bits)

def normal (x : Decimal) : Decimal :=
  if x.coefficient = 0 then ⟨0, 0⟩
  else if x.coefficient % 10 = 0 then normal ⟨x.coefficient / 10, x.exponent + 1⟩
  else x
termination_by x.coefficient
decreasing_by omega

end Decimal

end Formula.Number
