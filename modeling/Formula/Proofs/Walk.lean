import Formula.Proofs.Tiling
import Formula.SyntaxError

/-! The descent on a cursor that can only look at its current token and move on. It keeps the tokens
it has moved past, so that its moves can be counted. Each function says that no more tokens are left
when it returns than when it was called; with the level of the grammar that is the measure by which
the descent ends. -/

namespace Formula

theorem Level.ne_endOfInput {l : Level} {k : Token.Kind} {op : BinaryOp}
    (h : l.operator? k = some op) : k ≠ .endOfInput := by
  rintro rfl
  cases l <;> cases h

/-- A cursor with the tokens it has moved past. -/
structure Walk where
  cursor : Cursor
  passed : List Token

namespace Walk

def start (source : Text.Source) : Walk := ⟨.start source, []⟩

def current (w : Walk) : Token := w.cursor.current

def kind (w : Walk) : Token.Kind := w.current.kind

def advance (w : Walk) : Walk := ⟨w.cursor.advance, w.passed ++ [w.current]⟩

def left (w : Walk) : Nat := w.cursor.toList.length

theorem toList_advance {w : Walk} (h : w.kind ≠ .endOfInput) :
    w.cursor.toList = w.current :: w.advance.cursor.toList := by
  have hend : ¬ w.cursor.current.isEnd := mt of_decide_eq_true h
  conv => lhs; rw [Cursor.toList, if_neg hend]
  rfl

theorem left_advance_lt {w : Walk} {k : Token.Kind} (hk : w.kind = k) (h : k ≠ .endOfInput) :
    w.advance.left < w.left := by
  have htokens := toList_advance (w := w) (by rwa [hk])
  rw [left, left, htokens]
  exact Nat.lt_succ_self _

/-- What a function of the descent returns, and the cursor as it leaves it. -/
abbrev Outcome (α : Type) (n : Nat) := Except SyntaxError α × { w : Walk // w.left ≤ n }

namespace Outcome

variable {α β : Type}

/-- Goes on from a success. -/
def andThen {n : Nat} (r : Outcome α n) (f : α → (w : Walk) → w.left ≤ n → Outcome β n) :
    Outcome β n :=
  match r with
  | (.ok a, w) => f a w.1 w.2
  | (.error error, w) => (.error error, w)

def widen {m n : Nat} (r : Outcome α m) (h : m ≤ n) : Outcome α n :=
  (r.1, ⟨r.2.1, Nat.le_trans r.2.2 h⟩)

end Outcome

def stay {α : Type} (w : Walk) (result : Except SyntaxError α) : Outcome α w.left :=
  (result, ⟨w, Nat.le_refl _⟩)

def fail {α : Type} (w : Walk) (cause : SyntaxError.Cause) : Outcome α w.left :=
  w.stay (.error ⟨w.cursor.source, w.current.span, cause⟩)

def close {α : Type} (opening : Token) (a : α) (w : Walk) : Outcome α w.left :=
  if h : w.kind = .rightParen then
    (w.advance.stay (.ok a)).widen (Nat.le_of_lt (left_advance_lt h nofun))
  else w.fail (.missingClose opening.span)

mutual

def level : Level → (w : Walk) → Outcome Node w.left
  | .sum, w => (level .product w).andThen fun lhs w' h => (chain .sum lhs w').widen h
  | .product, w => (level .unary w).andThen fun lhs w' h => (chain .product lhs w').widen h
  | .unary, w =>
    match hk : w.kind with
    | .plus =>
      have hlt := left_advance_lt hk nofun
      (level .unary w.advance).widen (Nat.le_of_lt hlt)
    | .minus =>
      have hlt := left_advance_lt hk nofun
      ((level .unary w.advance).andThen fun operand w' h =>
        (w'.stay (.ok (.unary .negate operand))).widen h).widen (Nat.le_of_lt hlt)
    | _ => level .leaf w
  | .leaf, w =>
    match hk : w.kind with
    | .number value =>
      have hlt := left_advance_lt hk nofun
      (w.advance.stay (.ok (.literal value))).widen (Nat.le_of_lt hlt)
    | .leftParen =>
      have hlt := left_advance_lt hk nofun
      ((level .sum w.advance).andThen fun node w' h =>
        (close w.current node w').widen h).widen (Nat.le_of_lt hlt)
    | .name =>
      have hlt := left_advance_lt hk nofun
      (application w.current w.advance).widen (Nat.le_of_lt hlt)
    | .endOfInput => w.fail .unexpectedEnd
    | _ => w.fail (.unexpectedToken w.current.literal)
termination_by l w => 5 * w.left + l.height
decreasing_by all_goals simp only [Level.height]; omega

def chain (l : Level) (lhs : Node) (w : Walk) : Outcome Node w.left :=
  match ho : l.operator? w.kind with
  | none => w.stay (.ok lhs)
  | some op =>
    have hlt : w.advance.left < w.left := left_advance_lt rfl (Level.ne_endOfInput ho)
    have := l.tighter.height_le
    ((level l.tighter w.advance).andThen fun rhs w' h =>
      (chain l (.binary op lhs rhs) w').widen h).widen (Nat.le_of_lt hlt)
termination_by 5 * w.left

/-- Reads what follows a name: its arguments in parentheses, or nothing that belongs to it. -/
def application (name : Token) (w : Walk) : Outcome Node w.left :=
  if hk : w.kind = .leftParen then
    have hlt := left_advance_lt hk nofun
    if w.advance.kind = .rightParen then
      (w.advance.stay (.error ⟨w.cursor.source,
        ⟨w.current.offset, w.advance.current.stop - w.current.offset⟩,
        .emptyArguments name.literal⟩)).widen (Nat.le_of_lt hlt)
    else
      ((operands w.advance).andThen fun nodes w' h =>
        (close w.current (.call name.literal nodes) w').widen h).widen (Nat.le_of_lt hlt)
  else w.stay (.ok (.var name.literal))
termination_by 5 * w.left

def operands (w : Walk) : Outcome (List Node) w.left :=
  (level .sum w).andThen fun first w' h =>
    if hk : w'.kind = .comma then
      have hlt := left_advance_lt hk nofun
      ((operands w'.advance).andThen fun nodes w'' h' =>
        (w''.stay (.ok (first :: nodes))).widen h').widen (Nat.le_of_lt (Nat.lt_of_lt_of_le hlt h))
    else (w'.stay (.ok [first])).widen h
termination_by 5 * w.left + 4
decreasing_by
  · simp only [Level.height]; omega
  · omega

end

def parse (source : Text.Source) : Except SyntaxError Node × Walk :=
  let outcome := (level .sum (start source)).andThen fun node w h =>
    (if w.kind = .endOfInput then w.stay (.ok node)
      else w.fail (.trailingInput w.current.literal)).widen h
  (outcome.1, outcome.2)

end Walk

end Formula
