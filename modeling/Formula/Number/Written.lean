import Formula.Number.Decimal

/-! How doubles are written, always with the shortest digits that read back. The exact value of the
double is cut after 1, 2, … 17 digits, and the first of these grids on which one of the two
neighbours of the value reads back gives the digits: those of the nearer one, or of the upper one on
a tie. `plain` writes all digits in place, `scientific` one digit before the point and an exponent,
`logged` chooses between the two by size and keeps at least one decimal. -/

namespace Formula.Number

def significand (bits : Nat) : Nat × Int :=
  if bits < binadeSize then (bits, -1074)
  else (bits % binadeSize + binadeSize, (bits / binadeSize : Nat) - 1075)

namespace Decimal

def exact (bits : Nat) : Decimal :=
  let (m, e) := significand bits
  if 0 ≤ e then ⟨m * Nat.pow 2 e.toNat, 0⟩ else ⟨m * Nat.pow 5 (-e).toNat, e⟩

/-- The two decimals around `x` on the grid that drops its last `cut` digits, the nearer one
first. -/
def neighbours (x : Decimal) (cut : Nat) : List Decimal :=
  let step := Nat.pow 10 cut
  let below : Decimal := ⟨x.coefficient / step, x.exponent + cut⟩
  let above : Decimal := ⟨x.coefficient / step + 1, x.exponent + cut⟩
  if 2 * (x.coefficient % step) < step then [below.normal, above.normal]
  else [above.normal, below.normal]

/-- The shortest decimal that reads back as the double with these bits. -/
def shortest (bits : Nat) : Decimal :=
  let x := exact bits
  let size := (Nat.toDigits 10 x.coefficient).length
  let found := (List.range 17).findSome? fun k =>
    (x.neighbours (size - (k + 1))).find? fun y => y.bits == bits
  found.getD x

def positional (x : Decimal) : List Char :=
  let digits := Nat.toDigits 10 x.coefficient
  let places := (-x.exponent).toNat
  if 0 ≤ x.exponent then digits ++ List.replicate x.exponent.toNat '0'
  else if places < digits.length then
    digits.take (digits.length - places) ++ '.' :: digits.drop (digits.length - places)
  else '0' :: '.' :: (List.replicate (places - digits.length) '0' ++ digits)

def writeExponent (e : Int) : List Char :=
  if e < 0 then '-' :: Nat.toDigits 10 e.natAbs else Nat.toDigits 10 e.natAbs

/-- One digit, the others after a point, and the exponent after `mark`. -/
def scientific (mark : Char) (x : Decimal) : List Char :=
  let digits := Nat.toDigits 10 x.coefficient
  let tail := digits.drop 1
  digits.take 1 ++ (if tail = [] then [] else '.' :: tail)
    ++ mark :: writeExponent (x.exponent + tail.length)

end Decimal

def write (body : Decimal → List Char) (x : Float) : String :=
  if x.isNaN then "NaN"
  else
    let unsigned :=
      if magnitude x < infinityBits then body (Decimal.shortest (magnitude x))
      else ['i', 'n', 'f']
    String.ofList (if isNegative x then '-' :: unsigned else unsigned)

def plain (x : Float) : String := write Decimal.positional x

def scientific (mark : Char) (x : Float) : String := write (Decimal.scientific mark) x

def wantsExponent (x : Float) : Bool := (0 < x.abs && x.abs < 1e-4) || 1e16 ≤ x.abs

def logged (x : Float) : String :=
  if wantsExponent x then scientific 'e' x
  else write (fun d => if 0 ≤ d.exponent then d.positional ++ ['.', '0'] else d.positional) x

end Formula.Number
