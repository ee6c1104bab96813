import Formula.Context
import Formula.SyntaxError

/-! Evaluation of trees against a context. Operands and arguments are evaluated from left to
right, the arguments of a call before the call, and the first name without a meaning ends it. -/

namespace Formula

variable {σ : Type}

mutual

def Node.evaluate (context : Context σ) : Node → Answer σ Float
  | .literal value => pure value
  | .var name => context.resolve name []
  | .call name arguments => do
    let values ← evaluateAll context arguments
    context.resolve name values
  | .unary op operand => do
    let x ← evaluate context operand
    return op.apply x
  | .binary op lhs rhs => do
    let x ← evaluate context lhs
    let y ← evaluate context rhs
    return op.apply x y
  | .ternary op first second third => do
    let x ← evaluate context first
    let y ← evaluate context second
    let z ← evaluate context third
    return op.apply x y z

def Node.evaluateAll (context : Context σ) : List Node → Answer σ (List Float)
  | [] => pure []
  | node :: nodes => do
    let value ← evaluate context node
    let values ← evaluateAll context nodes
    return value :: values

end

/-- Why a text has no value. -/
inductive EvaluationError where
  | unreadable (error : SyntaxError)
  | unresolvable (error : NameError)

def evaluate (text : String) (context : Context σ) : EStateM EvaluationError σ Float :=
  fun state =>
    match parse text with
    | .error error => .error (.unreadable error) state
    | .ok node =>
      match node.evaluate context state with
      | .ok value state => .ok value state
      | .error error state => .error (.unresolvable error) state

end Formula
