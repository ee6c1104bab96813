/-! Doubles by their bits, the larger and the smaller of two, and whole numbers near one. Below
`infinityBits` the magnitudes are those of the finite doubles, in increasing order. What is not a
number gives way to the other operand. A double of at least `2 ^ 52` is whole; below that, adding
and subtracting `2 ^ 52` rounds to a whole number, ties to even. -/

namespace Formula.Number

def infinityBits : Nat := 0x7FF0000000000000

def infinity : Float := Float.ofBits 0x7FF0000000000000

def nan : Float := Float.ofBits 0x7FF8000000000000

def binadeSize : Nat := 0x10000000000000

def magnitude (x : Float) : Nat := x.toBits.toNat % 0x8000000000000000

/-- Whether the sign bit is set; what is not a number has it clear. -/
def isNegative (x : Float) : Bool := 0x8000000000000000 ≤ x.toBits.toNat

def larger (a b : Float) : Float :=
  if a.isNaN then b else if b.isNaN then a else if a < b then b else a

def smaller (a b : Float) : Float :=
  if a.isNaN then b else if b.isNaN then a else if b < a then b else a

/-- The value raised to `low`, then lowered to `high`; so `high` wins if the bounds are crossed. -/
def clamp (value low high : Float) : Float := smaller (larger value low) high

/-- The smallest power of two from which on all doubles are whole. -/
def wholeFrom : Float := 4503599627370496

def withSignOf (s x : Float) : Float := if isNegative s then -x.abs else x.abs

def roundEven (x : Float) : Float :=
  if x.abs < wholeFrom then withSignOf x ((x.abs + wholeFrom) - wholeFrom) else x

def floor (x : Float) : Float :=
  let r := roundEven x
  if x < r then r - 1 else r

def ceiling (x : Float) : Float := -floor (-x)

def isWhole (x : Float) : Bool := x.isFinite && roundEven x == x

end Formula.Number
