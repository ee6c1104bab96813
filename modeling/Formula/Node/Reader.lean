import Formula.Grammar
import Formula.Node

/-! Reading a tree from tokens by recursive descent. A failure says what was expected and keeps
the tokens from the offending one on. The tokens left by a success are fewer than those given,
which is why the descent ends: it goes on with fewer tokens, or with the same ones on a tighter
level. -/

namespace Formula.Reader

inductive Expected where
  | operand
  /-- An operand after the parenthesis that opens the arguments of a name. -/
  | argument (name opening : Token)
  | close (opening : Token)
  | finish

structure Failure where
  expected : Expected
  /-- The tokens from the offending one on; none at the end of the input. -/
  rest : List Token

/-- A value and the tokens left, fewer than `n`, or a failure. -/
abbrev Result (α : Type) (n : Nat) := Except Failure (α × { ts : List Token // ts.length < n })

namespace Result

def map {α β : Type} {n : Nat} (f : α → β) : Result α n → Result β n
  | .ok (a, rest) => .ok (f a, rest)
  | .error failure => .error failure

def widen {α : Type} {m n : Nat} (h : m ≤ n) : Result α m → Result α n
  | .ok (a, rest) => .ok (a, ⟨rest.1, Nat.lt_of_lt_of_le rest.2 h⟩)
  | .error failure => .error failure

end Result

def close {α : Type} (opening : Token) (value : α) : (ts : List Token) → Result α ts.length
  | [] => .error ⟨.close opening, []⟩
  | t :: ts =>
    if t.kind = .rightParen then .ok (value, ⟨ts, Nat.lt_succ_self _⟩)
    else .error ⟨.close opening, t :: ts⟩

def startsWithClose : List Token → Bool
  | [] => false
  | t :: _ => t.kind = .rightParen

mutual

def level : Level → (ts : List Token) → Result Node ts.length
  | .sum, ts =>
    match level .product ts with
    | .error failure => .error failure
    | .ok (lhs, rest) => (chain .sum lhs rest.1).widen rest.2
  | .product, ts =>
    match level .unary ts with
    | .error failure => .error failure
    | .ok (lhs, rest) => (chain .product lhs rest.1).widen rest.2
  | .unary, [] => .error ⟨.operand, []⟩
  | .unary, t :: ts =>
    match t.kind with
    | .plus => (level .unary ts).widen (Nat.le_succ _)
    | .minus => ((level .unary ts).map (Node.unary .negate)).widen (Nat.le_succ _)
    | _ => level .leaf (t :: ts)
  | .leaf, [] => .error ⟨.operand, []⟩
  | .leaf, t :: ts =>
    match t.kind with
    | .number value => .ok (.literal value, ⟨ts, Nat.lt_succ_self _⟩)
    | .leftParen =>
      match level .sum ts with
      | .error failure => .error failure
      | .ok (node, rest) => (close t node rest.1).widen (Nat.le_succ_of_le (Nat.le_of_lt rest.2))
    | .name => application t ts
    | _ => .error ⟨.operand, t :: ts⟩
termination_by l ts => 5 * ts.length + l.height
decreasing_by all_goals simp only [Level.height, List.length_cons]; omega

/-- Continues a chain of operators to the right of `lhs`. -/
def chain (l : Level) (lhs : Node) : (ts : List Token) → Result Node (ts.length + 1)
  | [] => .ok (lhs, ⟨[], Nat.lt_succ_self _⟩)
  | t :: ts =>
    match l.operator? t.kind with
    | none => .ok (lhs, ⟨t :: ts, Nat.lt_succ_self _⟩)
    | some op =>
      have := l.tighter.height_le
      match level l.tighter ts with
      | .error failure => .error failure
      | .ok (rhs, rest) =>
        (chain l (.binary op lhs rhs) rest.1).widen (Nat.le_succ_of_le (Nat.le_succ_of_le rest.2))
termination_by ts => 5 * ts.length

/-- Reads what follows a name: its arguments in parentheses, or nothing that belongs to it. -/
def application (name : Token) : (ts : List Token) → Result Node (ts.length + 1)
  | [] => .ok (.var name.literal, ⟨[], Nat.lt_succ_self _⟩)
  | opening :: ts =>
    if opening.kind = .leftParen then
      if startsWithClose ts then .error ⟨.argument name opening, ts⟩
      else
        match operands ts with
        | .error failure => .error failure
        | .ok (nodes, rest) =>
          (close opening (Node.call name.literal nodes) rest.1).widen (by
            have := rest.2
            simp only [List.length_cons]
            omega)
    else .ok (.var name.literal, ⟨opening :: ts, Nat.lt_succ_self _⟩)
termination_by ts => 5 * ts.length

def operands (ts : List Token) : Result (List Node) ts.length :=
  match level .sum ts with
  | .error failure => .error failure
  | .ok (first, ⟨[], h⟩) => .ok ([first], ⟨[], h⟩)
  | .ok (first, ⟨t :: rest, h⟩) =>
    have shorter : rest.length < ts.length := Nat.lt_of_succ_lt h
    if t.kind = .comma then ((operands rest).map (first :: ·)).widen (Nat.le_of_lt shorter)
    else .ok ([first], ⟨t :: rest, h⟩)
termination_by 5 * ts.length + 4
decreasing_by
  · simp only [Level.height]; omega
  · omega

end

def parse (ts : List Token) : Except Failure Node :=
  match level .sum ts with
  | .error failure => .error failure
  | .ok (node, ⟨[], _⟩) => .ok node
  | .ok (_, ⟨t :: rest, _⟩) => .error ⟨.finish, t :: rest⟩

end Formula.Reader
