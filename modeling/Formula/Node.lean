import Formula.Operator

/-! Expression trees. Ternary nodes have no notation of their own and are built only by programs
that assemble trees. -/

namespace Formula

inductive Node where
  | literal (value : Float)
  | var (name : String)
  | call (name : String) (arguments : List Node)
  | unary (op : UnaryOp) (operand : Node)
  | binary (op : BinaryOp) (lhs rhs : Node)
  | ternary (op : TernaryOp) (first second third : Node)

namespace Node

mutual

/-- Whether two trees agree, literals being compared as numbers: what is not a number agrees with
nothing, and the two zeros agree. -/
def agrees : Node → Node → Bool
  | .literal x, .literal y => x == y
  | .var x, .var y => x == y
  | .call f xs, .call g ys => f == g && agreesAll xs ys
  | .unary o x, .unary p y => o == p && agrees x y
  | .binary o x₁ x₂, .binary p y₁ y₂ => o == p && agrees x₁ y₁ && agrees x₂ y₂
  | .ternary o x₁ x₂ x₃, .ternary p y₁ y₂ y₃ =>
    o == p && agrees x₁ y₁ && agrees x₂ y₂ && agrees x₃ y₃
  | _, _ => false

def agreesAll : List Node → List Node → Bool
  | [], [] => true
  | x :: xs, y :: ys => agrees x y && agreesAll xs ys
  | _, _ => false

end

@[elab_as_elim]
theorem induct {motive : Node → Prop} (literal : ∀ value, motive (.literal value))
    (var : ∀ name, motive (.var name))
    (call : ∀ name arguments, (∀ t ∈ arguments, motive t) → motive (.call name arguments))
    (unary : ∀ op operand, motive operand → motive (.unary op operand))
    (binary : ∀ op lhs rhs, motive lhs → motive rhs → motive (.binary op lhs rhs))
    (ternary : ∀ op first second third, motive first → motive second → motive third →
      motive (.ternary op first second third)) (t : Node) : motive t :=
  match t with
  | .literal value => literal value
  | .var name => var name
  | .call name arguments =>
    call name arguments fun t _ => t.induct literal var call unary binary ternary
  | .unary op operand => unary op operand (operand.induct literal var call unary binary ternary)
  | .binary op lhs rhs =>
    binary op lhs rhs (lhs.induct literal var call unary binary ternary)
      (rhs.induct literal var call unary binary ternary)
  | .ternary op first second third =>
    ternary op first second third (first.induct literal var call unary binary ternary)
      (second.induct literal var call unary binary ternary)
      (third.induct literal var call unary binary ternary)

end Node

end Formula
