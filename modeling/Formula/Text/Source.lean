/-! Places in a text. Offsets and lengths count the bytes of the UTF-8 form, and lines are
counted from one. -/

namespace Formula.Text

structure Span where
  offset : Nat
  length : Nat
deriving Repr, DecidableEq

def byteLength : List Char → Nat
  | [] => 0
  | c :: cs => c.utf8Size + byteLength cs

theorem byteLength_append (cs ds : List Char) :
    byteLength (cs ++ ds) = byteLength cs + byteLength ds := by
  induction cs with
  | nil => simp [byteLength]
  | cons c cs ih => simp only [List.cons_append, byteLength, ih, Nat.add_assoc]

/-- How many line breaks start within the first `bytes` bytes. -/
def breaksBefore : List Char → Nat → Nat
  | [], _ => 0
  | c :: cs, bytes =>
    if bytes = 0 then 0
    else (if c = '\n' then 1 else 0) + breaksBefore cs (bytes - c.utf8Size)

structure Source where
  file : Option String
  text : String
deriving Repr, DecidableEq

namespace Source

/-- What reports call the text. -/
def name (source : Source) : String := source.file.getD "<input>"

def size (source : Source) : Nat := byteLength source.text.toList

def line (source : Source) (offset : Nat) : Nat := breaksBefore source.text.toList offset + 1

end Source

end Formula.Text
