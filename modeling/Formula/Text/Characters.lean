/-! Blank characters, by the White_Space property, the removal of blanks at the ends of a text, and
texts in double quotes, as descriptions and logs show names. There a quote and a backslash stand
behind a backslash; so does a control character, by a letter if it has one and else by its code.
The names are ASCII, so no other character needs a code. -/

namespace Formula.Text

/-- The code points with the White_Space property, as closed ranges in increasing order. -/
def blankRanges : List (Nat × Nat) :=
  [(0x09, 0x0D), (0x20, 0x20), (0x85, 0x85), (0xA0, 0xA0), (0x1680, 0x1680), (0x2000, 0x200A),
   (0x2028, 0x2029), (0x202F, 0x202F), (0x205F, 0x205F), (0x3000, 0x3000)]

def isBlank (c : Char) : Bool :=
  blankRanges.any fun range => range.1 ≤ c.toNat && c.toNat ≤ range.2

def trimStart (cs : List Char) : List Char := cs.dropWhile isBlank

def trimEnd (cs : List Char) : List Char := (trimStart cs.reverse).reverse

def trim (cs : List Char) : List Char := trimEnd (trimStart cs)

example : isBlank '\t' ∧ isBlank '\u2003' ∧ ¬ isBlank '\u200b' := by decide

example : trim [' ', 'a', ' ', 'b', '\n'] = ['a', ' ', 'b'] := by decide

def escapeLetter? : Char → Option Char
  | '"' => some '"'
  | '\\' => some '\\'
  | '\n' => some 'n'
  | '\r' => some 'r'
  | '\t' => some 't'
  | '\x00' => some '0'
  | _ => none

def isControl (c : Char) : Bool := c.toNat < 0x20 || (0x7F ≤ c.toNat && c.toNat < 0xA0)

/-- A character as it stands between quotes. -/
def escape (c : Char) : List Char :=
  match escapeLetter? c with
  | some letter => ['\\', letter]
  | none =>
    if isControl c then '\\' :: 'u' :: '\x7b' :: (Nat.toDigits 16 c.toNat ++ ['\x7d']) else [c]

def quoted (text : String) : String :=
  String.ofList ('"' :: (text.toList.flatMap escape ++ ['"']))

example : escape '"' = ['\\', '"'] ∧ escape '\'' = ['\''] ∧ escape '\t' = ['\\', 't'] := by decide

example : escape '\x1b' = ['\\', 'u', '\x7b', '1', 'b', '\x7d'] := by decide

end Formula.Text
