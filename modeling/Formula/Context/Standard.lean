import Formula.Context
import Formula.Number.Double

/-! The standard constants and functions. One table says how many arguments a name takes, another
one what its value is; a name with another number of arguments is refused by its name. -/

namespace Formula.Standard

/-- One, zero or minus one by the sign of `x`; a zero and what is not a number stay as they are. -/
def sign (x : Float) : Float := if 0 < x then 1 else if x < 0 then -1 else x

def epsilon : Float := 1e-15

def tolerance (a b : Float) : Float := Number.larger epsilon (epsilon * Number.smaller a b)

def pick (condition : Bool) (yes no : Float) : Float := if condition then yes else no

def arity? : String → Option Nat
  | "pi" | "e" => some 0
  | "sin" | "cos" | "abs" | "sqrt" | "ceiling" | "floor" | "exp" | "log" | "round" | "sign" =>
    some 1
  | "max" | "min" => some 2
  | "clamp" => some 3
  | "greater" | "lesser" | "equal" | "notequal" => some 4
  | _ => none

/-- The value of a name with these arguments. Numbers that differ by exactly the tolerance are
neither `equal` nor `notequal`. -/
def value? : String → List Float → Option Float
  | "pi", [] => some 3.141592653589793
  | "e", [] => some 2.718281828459045
  | "sin", [x] => some x.sin
  | "cos", [x] => some x.cos
  | "abs", [x] => some x.abs
  | "sqrt", [x] => some x.sqrt
  | "ceiling", [x] => some (Number.ceiling x)
  | "floor", [x] => some (Number.floor x)
  | "exp", [x] => some x.exp
  | "log", [x] => some x.log
  | "round", [x] => some (Number.roundEven x)
  | "sign", [x] => some (sign x)
  | "max", [a, b] => some (Number.larger a b)
  | "min", [a, b] => some (Number.smaller a b)
  | "clamp", [value, low, high] => some (Number.clamp value low high)
  | "greater", [a, b, yes, no] => some (pick (b < a) yes no)
  | "lesser", [a, b, yes, no] => some (pick (a < b) yes no)
  | "equal", [a, b, yes, no] => some (pick ((a - b).abs < tolerance a b) yes no)
  | "notequal", [a, b, yes, no] => some (pick (tolerance a b < (a - b).abs) yes no)
  | _, _ => none

def resolve (name : String) (arguments : List Float) : Except NameError Float :=
  match value? name arguments with
  | some value => .ok value
  | none =>
    match arity? name with
    | some expected => .error (.arityMismatch name expected arguments.length)
    | none =>
      if arguments = [] then .error (.unresolved name 0) else .error (.unknownFunction name)

def context {σ : Type} : Context σ := .stateless resolve fun name => (arity? name).isSome

end Formula.Standard
