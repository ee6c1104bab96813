import Formula.Number.Decimal

/-! Numerals: texts that denote a double. An unsigned numeral is digits with at most one point
and at least one digit, then an exponent if there is one; a numeral may also have a sign, and
may be one of the words for infinity and for what is not a number, in any case. -/

namespace Formula.Number

inductive NumeralError where
  | empty
  | malformed
deriving Repr, DecidableEq

def NumeralError.message : NumeralError → String
  | .empty => "cannot parse float from empty string"
  | .malformed => "invalid float literal"

def digits? (cs : List Char) : Option Nat :=
  if cs ≠ [] ∧ cs.all Char.isDigit then some (Nat.ofDigitChars 10 cs 0) else none

def signedDigits? : List Char → Option Int
  | '+' :: cs => (digits? cs).map fun n => (n : Int)
  | '-' :: cs => (digits? cs).map fun n => -(n : Int)
  | cs => (digits? cs).map fun n => (n : Int)

/-- The exponent part of a numeral, which may be missing. -/
def exponent? : List Char → Option Int
  | [] => some 0
  | c :: cs => if c = 'e' ∨ c = 'E' then signedDigits? cs else none

/-- The digits after the point, if there is a point, and what follows. -/
def fraction : List Char → List Char × List Char
  | '.' :: cs => (cs.takeWhile Char.isDigit, cs.dropWhile Char.isDigit)
  | cs => ([], cs)

/-- The number that an unsigned numeral denotes. -/
def Decimal.ofChars? (cs : List Char) : Option Decimal :=
  let whole := cs.takeWhile Char.isDigit
  let (decimals, rest) := fraction (cs.dropWhile Char.isDigit)
  if whole = [] ∧ decimals = [] then none
  else (exponent? rest).map fun e =>
    ⟨Nat.ofDigitChars 10 (whole ++ decimals) 0, e - (decimals.length : Int)⟩

def unsigned? (cs : List Char) : Option Float :=
  let lower := cs.map Char.toLower
  if lower = ['i', 'n', 'f'] ∨ lower = ['i', 'n', 'f', 'i', 'n', 'i', 't', 'y'] then some infinity
  else if lower = ['n', 'a', 'n'] then some nan
  else (Decimal.ofChars? cs).map Decimal.toFloat

def signed? : List Char → Option Float
  | '+' :: cs => unsigned? cs
  | '-' :: cs => (unsigned? cs).map fun x => -x
  | cs => unsigned? cs

def read (cs : List Char) : Except NumeralError Float :=
  if cs = [] then .error .empty
  else match signed? cs with
    | some x => .ok x
    | none => .error .malformed

end Formula.Number
