import Formula.Node

/-! Trees as lists of instructions in postorder: the operands of a node come before it, from left
to right. -/

namespace Formula

inductive Instruction where
  | literal (value : Float)
  | var (name : String)
  /-- Takes as many operands as `count` says. -/
  | call (name : String) (count : Nat)
  | unary (op : UnaryOp)
  | binary (op : BinaryOp)
  | ternary (op : TernaryOp)

namespace Node

mutual

def codeThen (rest : List Instruction) : Node → List Instruction
  | .literal value => .literal value :: rest
  | .var name => .var name :: rest
  | .call name arguments => codeAllThen (.call name arguments.length :: rest) arguments
  | .unary op operand => codeThen (.unary op :: rest) operand
  | .binary op lhs rhs => codeThen (codeThen (.binary op :: rest) rhs) lhs
  | .ternary op first second third =>
    codeThen (codeThen (codeThen (.ternary op :: rest) third) second) first

def codeAllThen (rest : List Instruction) : List Node → List Instruction
  | [] => rest
  | node :: nodes => codeThen (codeAllThen rest nodes) node

end

def code (node : Node) : List Instruction := codeThen [] node

/-- Builds one node from the trees on a stack, whose top comes first. -/
def build? (instruction : Instruction) (stack : List Node) : Option (List Node) :=
  match instruction, stack with
  | .literal value, stack => some (.literal value :: stack)
  | .var name, stack => some (.var name :: stack)
  | .call name count, stack =>
    if count ≤ stack.length then
      some (.call name (stack.take count).reverse :: stack.drop count)
    else none
  | .unary op, operand :: stack => some (.unary op operand :: stack)
  | .binary op, rhs :: lhs :: stack => some (.binary op lhs rhs :: stack)
  | .ternary op, third :: second :: first :: stack =>
    some (.ternary op first second third :: stack)
  | _, _ => none

def buildAll? : List Instruction → List Node → Option (List Node)
  | [], stack => some stack
  | instruction :: rest, stack => (build? instruction stack).bind (buildAll? rest)

def ofCode? (instructions : List Instruction) : Option Node :=
  match buildAll? instructions [] with
  | some [node] => some node
  | _ => none

end Node

end Formula
