import Formula.Token.Scan

/-! A cursor on the tokens of a text. The current token is always there: past the last one it is
the end of the input, and stays so however often the cursor moves. -/

namespace Formula

structure Cursor where
  source : Text.Source
  current : Token
  rest : List Char

namespace Cursor

def start (source : Text.Source) : Cursor :=
  let (token, rest) := Token.scan 0 source.text.toList
  ⟨source, token, rest⟩

def advance (cursor : Cursor) : Cursor :=
  let (token, rest) := Token.scan cursor.current.stop cursor.rest
  { cursor with current := token, rest := rest }

/-- The current token and the cursor moved on, or nothing at the end of the input. -/
def next? (cursor : Cursor) : Option (Token × Cursor) :=
  if cursor.current.isEnd then none else some (cursor.current, cursor.advance)

def stepsLeft (cursor : Cursor) : Nat :=
  cursor.rest.length + if cursor.current.isEnd then 0 else 1

theorem stepsLeft_advance_lt {cursor : Cursor} (h : ¬ cursor.current.isEnd) :
    cursor.advance.stepsLeft < cursor.stepsLeft := by
  unfold stepsLeft advance
  by_cases he : (Token.scan cursor.current.stop cursor.rest).1.isEnd
  · have := Token.scan_rest_length_le cursor.current.stop cursor.rest
    simp [he, h]
    omega
  · have := Token.scan_rest_length_lt he
    simp [he, h]
    omega

/-- The tokens from the current one on, each taken by a step of the cursor. -/
def toList (cursor : Cursor) : List Token :=
  if cursor.current.isEnd then [] else cursor.current :: cursor.advance.toList
termination_by cursor.stepsLeft
decreasing_by exact stepsLeft_advance_lt ‹_›

theorem toList_eq (cursor : Cursor) :
    cursor.toList = if cursor.current.isEnd then []
      else cursor.current :: Token.scanAll cursor.current.stop cursor.rest := by
  fun_induction toList cursor with
  | case1 cursor h => simp [h]
  | case2 cursor h ih =>
    rw [if_neg h, ih]
    conv => rhs; rw [Token.scanAll]
    rfl

theorem toList_start (source : Text.Source) : (start source).toList = Token.ofText source.text := by
  rw [toList_eq, Token.ofText]
  conv => rhs; rw [Token.scanAll]
  rfl

end Cursor

end Formula
