import Formula.Node.Code

/-! The instructions of a tree in postorder: those of the operands from left to right, then the one
of the node itself. The names among them are the questions that a tree asks a context, in the order
in which it asks them. -/

namespace Formula

/-- The name that an instruction resolves, with the number of its arguments. -/
def Instruction.question? : Instruction → Option (String × Nat)
  | .var name => some (name, 0)
  | .call name count => some (name, count)
  | _ => none

namespace Node

theorem codeAllThen_append {nodes : List Node}
    (h : ∀ t ∈ nodes, ∀ rest rest', t.codeThen (rest ++ rest') = t.codeThen rest ++ rest')
    (rest rest' : List Instruction) :
    codeAllThen (rest ++ rest') nodes = codeAllThen rest nodes ++ rest' := by
  induction nodes with
  | nil => rfl
  | cons t nodes ih =>
    rw [codeAllThen, codeAllThen, ih fun u hu => h u (List.mem_cons_of_mem t hu)]
    exact h t List.mem_cons_self _ _

/-- What follows the instructions of a tree is left as it is. -/
theorem codeThen_append (t : Node) : ∀ rest rest',
    t.codeThen (rest ++ rest') = t.codeThen rest ++ rest' := by
  induction t using Node.induct with
  | literal value => exact fun _ _ => rfl
  | var name => exact fun _ _ => rfl
  | call name arguments ih => exact fun rest => codeAllThen_append ih (_ :: rest)
  | unary op operand ih => exact fun rest => ih (_ :: rest)
  | binary op lhs rhs ihl ihr =>
    intro rest rest'
    rw [codeThen, codeThen, ← ihl, ← ihr]
    rfl
  | ternary op first second third ih₁ ih₂ ih₃ =>
    intro rest rest'
    rw [codeThen, codeThen, ← ih₁, ← ih₂, ← ih₃]
    rfl

theorem codeThen_eq (rest : List Instruction) (t : Node) : t.codeThen rest = t.code ++ rest :=
  codeThen_append t [] rest

theorem codeAllThen_eq (rest : List Instruction) (nodes : List Node) :
    codeAllThen rest nodes = nodes.flatMap code ++ rest := by
  induction nodes with
  | nil => rfl
  | cons t nodes ih => rw [codeAllThen, codeThen_eq, ih, List.flatMap_cons, List.append_assoc]

@[simp] theorem code_literal (value : Float) : (literal value).code = [.literal value] := rfl

@[simp] theorem code_var (name : String) : (var name).code = [.var name] := rfl

@[simp] theorem code_call (name : String) (arguments : List Node) :
    (call name arguments).code = arguments.flatMap code ++ [.call name arguments.length] :=
  codeAllThen_eq _ arguments

@[simp] theorem code_unary (op : UnaryOp) (operand : Node) :
    (unary op operand).code = operand.code ++ [.unary op] :=
  codeThen_eq _ operand

@[simp] theorem code_binary (op : BinaryOp) (lhs rhs : Node) :
    (binary op lhs rhs).code = lhs.code ++ rhs.code ++ [.binary op] := by
  rw [code, codeThen, codeThen_eq, codeThen_eq, List.append_assoc]

@[simp] theorem code_ternary (op : TernaryOp) (first second third : Node) :
    (ternary op first second third).code =
      first.code ++ second.code ++ third.code ++ [.ternary op] := by
  rw [code, codeThen, codeThen_eq, codeThen_eq, codeThen_eq, List.append_assoc, List.append_assoc]

/-- The names of a tree with their numbers of arguments, in postorder. -/
def questions (t : Node) : List (String × Nat) := t.code.filterMap Instruction.question?

@[simp] theorem questions_literal (value : Float) : (literal value).questions = [] := rfl

@[simp] theorem questions_var (name : String) : (var name).questions = [(name, 0)] := rfl

@[simp] theorem questions_call (name : String) (arguments : List Node) :
    (call name arguments).questions =
      arguments.flatMap questions ++ [(name, arguments.length)] := by
  rw [questions, code_call, List.filterMap_append, List.filterMap_flatMap]
  rfl

@[simp] theorem questions_unary (op : UnaryOp) (operand : Node) :
    (unary op operand).questions = operand.questions := by
  rw [questions, code_unary, List.filterMap_append]
  exact List.append_nil _

@[simp] theorem questions_binary (op : BinaryOp) (lhs rhs : Node) :
    (binary op lhs rhs).questions = lhs.questions ++ rhs.questions := by
  rw [questions, code_binary, List.filterMap_append, List.filterMap_append]
  exact List.append_nil _

@[simp] theorem questions_ternary (op : TernaryOp) (first second third : Node) :
    (ternary op first second third).questions =
      first.questions ++ second.questions ++ third.questions := by
  rw [questions, code_ternary, List.filterMap_append, List.filterMap_append,
    List.filterMap_append]
  exact List.append_nil _

example : (call "f" [var "a", call "g" [literal 5], var "b"]).questions =
    [("a", 0), ("g", 1), ("b", 0), ("f", 3)] := by rfl

end Node

end Formula
