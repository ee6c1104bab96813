import Formula.Number.Double

/-! The operators of an expression: how each is written and what it computes. Arithmetic is that
of doubles and never fails. -/

namespace Formula

inductive UnaryOp where
  | negate
deriving Repr, DecidableEq

inductive BinaryOp where
  | add
  | subtract
  | multiply
  | divide
deriving Repr, DecidableEq

inductive TernaryOp where
  /-- A value, its lower and its upper bound. -/
  | clamp
deriving Repr, DecidableEq

def UnaryOp.apply : UnaryOp → Float → Float
  | .negate, x => -x

namespace BinaryOp

def symbol : BinaryOp → String
  | .add => "+"
  | .subtract => "-"
  | .multiply => "*"
  | .divide => "/"

def apply : BinaryOp → Float → Float → Float
  | .add, x, y => x + y
  | .subtract, x, y => x - y
  | .multiply, x, y => x * y
  | .divide, x, y => x / y

end BinaryOp

namespace TernaryOp

def name : TernaryOp → String
  | .clamp => "clamp"

def apply : TernaryOp → Float → Float → Float → Float
  | .clamp, x, y, z => Number.clamp x y z

end TernaryOp

end Formula
