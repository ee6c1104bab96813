import Formula.Text.Characters
import Formula.Number.Numeral
import Formula.Token

/-! Cutting a text into tokens. Each rule takes a stretch from the front of the text and leaves
the rest; what is taken and what is left always make up the text again, and something is
always taken. Those two facts are why the cutting ends. -/

namespace Formula.Token

open Text (isBlank trimStart byteLength)

def startsName (c : Char) : Bool := c.isAlpha || c = '_'

def inName (c : Char) : Bool := startsName c || c.isDigit

def punctuation? : Char → Option Kind
  | '+' => some .plus
  | '-' => some .minus
  | '*' => some .star
  | '/' => some .slash
  | '(' => some .leftParen
  | ')' => some .rightParen
  | ',' => some .comma
  | _ => none

def takeMantissa (cs : List Char) : List Char × List Char :=
  let whole := cs.takeWhile Char.isDigit
  match cs.dropWhile Char.isDigit with
  | '.' :: tail => (whole ++ '.' :: tail.takeWhile Char.isDigit, tail.dropWhile Char.isDigit)
  | rest => (whole, rest)

def takeSign : List Char → List Char × List Char
  | '+' :: cs => (['+'], cs)
  | '-' :: cs => (['-'], cs)
  | cs => ([], cs)

/-- An exponent mark, a sign if there is one, and digits; nothing if there are no digits, so that
the mark may start a name and the sign may be an operator. -/
def takeExponent : List Char → List Char × List Char
  | [] => ([], [])
  | c :: cs =>
    if c = 'e' ∨ c = 'E' then
      let (sign, rest) := takeSign cs
      let digits := rest.takeWhile Char.isDigit
      if digits = [] then ([], c :: cs) else (c :: (sign ++ digits), rest.dropWhile Char.isDigit)
    else ([], c :: cs)

/-- The literal of a number. Only a digit may stand before an exponent. -/
def takeNumber (cs : List Char) : List Char × List Char :=
  let (mantissa, rest) := takeMantissa cs
  if mantissa.getLast?.any Char.isDigit then
    let (exponent, rest) := takeExponent rest
    (mantissa ++ exponent, rest)
  else (mantissa, rest)

/-- What a literal of digits and points is: a number, or invalid if it is a point alone. -/
def numberKind (literal : List Char) : Kind :=
  match Number.read literal with
  | .ok value => .number value
  | .error _ => .invalid

def lexeme (c : Char) (cs : List Char) : Kind × List Char × List Char :=
  match punctuation? c with
  | some kind => (kind, [c], cs)
  | none =>
    if startsName c then (.name, c :: cs.takeWhile inName, cs.dropWhile inName)
    else if c.isDigit || c = '.' then
      let (literal, rest) := takeNumber (c :: cs)
      (numberKind literal, literal, rest)
    else (.invalid, [c], cs)

/-- The first token of a text whose first byte has the given offset, and the rest of the text. -/
def scan (offset : Nat) (cs : List Char) : Token × List Char :=
  match trimStart cs with
  | [] => (⟨.endOfInput, "", offset + byteLength cs⟩, [])
  | c :: rest =>
    let (kind, literal, rest) := lexeme c rest
    (⟨kind, String.ofList literal, offset + byteLength (cs.takeWhile isBlank)⟩, rest)

theorem takeMantissa_append (cs : List Char) :
    (takeMantissa cs).1 ++ (takeMantissa cs).2 = cs := by
  unfold takeMantissa
  split
  · rename_i tail h
    simp only [List.append_assoc, List.cons_append, List.takeWhile_append_dropWhile]
    rw [← h, List.takeWhile_append_dropWhile]
  · exact List.takeWhile_append_dropWhile

theorem takeSign_append (cs : List Char) : (takeSign cs).1 ++ (takeSign cs).2 = cs := by
  unfold takeSign
  split <;> rfl

theorem takeExponent_append (cs : List Char) :
    (takeExponent cs).1 ++ (takeExponent cs).2 = cs := by
  unfold takeExponent
  split
  · rfl
  · rename_i c cs
    have h := takeSign_append cs
    simp only
    split
    · split
      · rfl
      · simp only [List.cons_append, List.append_assoc, List.takeWhile_append_dropWhile, h]
    · rfl

theorem takeNumber_append (cs : List Char) : (takeNumber cs).1 ++ (takeNumber cs).2 = cs := by
  have h := takeMantissa_append cs
  unfold takeNumber
  simp only
  split
  · simp only [List.append_assoc, takeExponent_append, h]
  · exact h

theorem takeNumber_ne_nil {c : Char} (cs : List Char) (hc : (c.isDigit || c = '.') = true) :
    (takeNumber (c :: cs)).1 ≠ [] := by
  have h : (takeMantissa (c :: cs)).1 ≠ [] := by
    unfold takeMantissa
    by_cases hd : c.isDigit
    · simp only [List.takeWhile_cons, List.dropWhile_cons, hd]
      split <;> simp
    · have hp : c = '.' := by simpa [hd] using hc
      subst hp
      simp
  unfold takeNumber
  simp only
  split
  · simp [h]
  · exact h

theorem lexeme_append (c : Char) (cs : List Char) :
    (lexeme c cs).2.1 ++ (lexeme c cs).2.2 = c :: cs := by
  unfold lexeme
  split
  · rfl
  · split
    · simp [List.takeWhile_append_dropWhile]
    · split
      · exact takeNumber_append (c :: cs)
      · rfl

theorem lexeme_ne_nil (c : Char) (cs : List Char) : (lexeme c cs).2.1 ≠ [] := by
  unfold lexeme
  split
  · simp
  · split
    · simp
    · split
      · rename_i h
        exact takeNumber_ne_nil cs h
      · simp

theorem lexeme_rest_length_lt (c : Char) (cs : List Char) :
    (lexeme c cs).2.2.length < (c :: cs).length := by
  have h := congrArg List.length (lexeme_append c cs)
  have hne := List.length_pos_iff.mpr (lexeme_ne_nil c cs)
  rw [List.length_append] at h
  omega

theorem trimStart_length_le (cs : List Char) : (trimStart cs).length ≤ cs.length :=
  (List.dropWhile_suffix _).sublist.length_le

theorem scan_rest_length_le (offset : Nat) (cs : List Char) :
    (scan offset cs).2.length ≤ cs.length := by
  have hle := trimStart_length_le cs
  unfold scan
  split
  · exact Nat.zero_le _
  · rename_i c rest hc
    rw [hc] at hle
    exact Nat.le_of_lt (Nat.lt_of_lt_of_le (lexeme_rest_length_lt c rest) hle)

/-- A token other than the end leaves a shorter rest. -/
theorem scan_rest_length_lt {offset : Nat} {cs : List Char} (h : ¬ (scan offset cs).1.isEnd) :
    (scan offset cs).2.length < cs.length := by
  have hle := trimStart_length_le cs
  revert h
  unfold scan
  split
  · simp [isEnd]
  · rename_i c rest hc
    rw [hc] at hle
    exact fun _ => Nat.lt_of_lt_of_le (lexeme_rest_length_lt c rest) hle

def scanAll (offset : Nat) (cs : List Char) : List Token :=
  let first := scan offset cs
  if first.1.isEnd then [] else first.1 :: scanAll first.1.stop first.2
termination_by cs.length
decreasing_by exact scan_rest_length_lt ‹_›

def ofText (text : String) : List Token := scanAll 0 text.toList

end Formula.Token
