import Formula.Node
import Formula.Number.Written

/-! The text of a tree: infix with every operation in parentheses, so that no rule of precedence
is needed to read it. -/

namespace Formula.Node

open Number (infinity plain)

/-- A literal. Infinity is written as a number too large for a double, since its usual text
would be a name. -/
def literalText (value : Float) : String :=
  if value == infinity then "1e999"
  else if value == -infinity then "(-1e999)"
  else plain value

mutual

def print : Node → String
  | .literal value => literalText value
  | .var name => name
  | .call name arguments => name ++ "(" ++ ", ".intercalate (printAll arguments) ++ ")"
  | .unary .negate operand => "(-" ++ print operand ++ ")"
  | .binary op lhs rhs => "(" ++ print lhs ++ " " ++ op.symbol ++ " " ++ print rhs ++ ")"
  | .ternary op first second third =>
    op.name ++ "(" ++ print first ++ ", " ++ print second ++ ", " ++ print third ++ ")"

def printAll : List Node → List String
  | [] => []
  | x :: xs => print x :: printAll xs

end

end Formula.Node
