import Formula.Operator
import Formula.Token

/-! The levels of the grammar, from the loosest to the tightest:

    sum     := product (('+' | '-') product)*
    product := unary (('*' | '/') unary)*
    unary   := '+' unary | '-' unary | leaf
    leaf    := number | '(' sum ')' | name ['(' sum (',' sum)* ')']

An expression is a sum that is followed by the end of the input. -/

namespace Formula

inductive Level where
  | sum
  | product
  | unary
  | leaf
deriving Repr, DecidableEq

namespace Level

def height : Level → Nat
  | .sum => 3
  | .product => 2
  | .unary => 1
  | .leaf => 0

theorem height_le (l : Level) : l.height ≤ 3 := by cases l <;> decide

/-- The level of the operands of a chain on this level. -/
def tighter : Level → Level
  | .sum => .product
  | .product => .unary
  | .unary => .leaf
  | .leaf => .leaf

def operator? : Level → Token.Kind → Option BinaryOp
  | .sum, .plus => some .add
  | .sum, .minus => some .subtract
  | .product, .star => some .multiply
  | .product, .slash => some .divide
  | _, _ => none

end Level

end Formula
