import Formula.Proofs.Tiling

/-! The cursor by bytes. The rest of the text and the place of its first byte are kept beside the
current token, lengths are counted in bytes, and the literal of a number is measured on the bytes
themselves. Every cut and every index is checked, and none of them fails on any text. -/

namespace Formula.Text

def bytes (cs : List Char) : List UInt8 := cs.flatMap String.utf8EncodeChar

/-- The text up to a byte and the text from it on, if a character starts there or the text ends. -/
def splitAt? : Nat → List Char → Option (List Char × List Char)
  | 0, cs => some ([], cs)
  | _ + 1, [] => none
  | n + 1, c :: cs =>
    if c.utf8Size ≤ n + 1 then do
      let (before, rest) ← splitAt? (n + 1 - c.utf8Size) cs
      some (c :: before, rest)
    else none

def bytesFrom? (start : Nat) (bs : List UInt8) : Option (List UInt8) :=
  if start ≤ bs.length then some (bs.drop start) else none

def difference? (m n : Nat) : Option Nat := if n ≤ m then some (m - n) else none

/-- The byte stands for a character with the property, if that is one of ASCII. -/
def byteIs (p : Char → Bool) (b : UInt8) : Bool := p (Char.ofUInt8 b)

theorem bytes_cons (c : Char) (cs : List Char) :
    bytes (c :: cs) = String.utf8EncodeChar c ++ bytes cs := List.flatMap_cons

theorem bytes_append (cs ds : List Char) : bytes (cs ++ ds) = bytes cs ++ bytes ds :=
  List.flatMap_append

theorem length_bytes (cs : List Char) : (bytes cs).length = byteLength cs := by
  induction cs with
  | nil => rfl
  | cons c cs ih =>
    rw [bytes_cons, List.length_append, String.length_utf8EncodeChar, ih, byteLength]

theorem splitAt?_append (cs ds : List Char) :
    splitAt? (byteLength cs) (cs ++ ds) = some (cs, ds) := by
  induction cs with
  | nil => cases ds <;> rfl
  | cons c cs ih =>
    have hpos := byteLength_pos (List.cons_ne_nil c cs)
    obtain ⟨n, hn⟩ := Nat.exists_eq_succ_of_ne_zero (Nat.ne_of_gt hpos)
    have hsize : c.utf8Size + byteLength cs = n + 1 := hn
    have hrest : n + 1 - c.utf8Size = byteLength cs := by omega
    rw [hn, List.cons_append, splitAt?, if_pos (by omega), hrest, ih]
    rfl

/-- A text is cut between two of its characters, and nowhere else. -/
theorem splitAt?_eq_some_iff {n : Nat} {cs before rest : List Char} :
    splitAt? n cs = some (before, rest) ↔ cs = before ++ rest ∧ byteLength before = n := by
  constructor
  · intro h
    fun_induction splitAt? n cs generalizing before with
    | case1 cs =>
      cases h
      exact ⟨rfl, rfl⟩
    | case2 => cases h
    | case3 n c cs hle ih =>
      obtain ⟨⟨taken, tail⟩, htaken, h⟩ := Option.bind_eq_some_iff.mp h
      cases h
      obtain ⟨rfl, hlength⟩ := ih htaken
      refine ⟨rfl, ?_⟩
      rw [byteLength, hlength]
      omega
    | case4 => cases h
  · rintro ⟨rfl, rfl⟩
    exact splitAt?_append before rest

theorem encode_cases (c : Char) :
    (c.toNat < 128 ∧ ∃ b, Char.ofUInt8 b = c ∧ String.utf8EncodeChar c = [b]) ∨
    (128 ≤ c.toNat ∧ ∃ b bs, 128 ≤ b.toNat ∧ String.utf8EncodeChar c = b :: bs) := by
  by_cases h : c.toNat < 128
  · have hle : c.val.toNat ≤ 127 := Nat.le_of_lt_succ h
    refine .inl ⟨h, UInt8.ofNat c.val.toNat, ?_, ?_⟩
    · apply Char.ext
      apply UInt32.toNat_inj.mp
      simp only [Char.ofUInt8, UInt8.toNat_toUInt32, UInt8.toNat_ofNat']
      omega
    · simp only [String.utf8EncodeChar, hle, if_true]
  · have hgt : ¬ c.val.toNat ≤ 127 := fun hle => h (Nat.lt_succ_of_le hle)
    refine .inr ⟨Nat.le_of_not_lt h, ?_⟩
    simp only [String.utf8EncodeChar, hgt, if_false]
    split
    · refine ⟨_, _, ?_, rfl⟩
      simp only [UInt8.toNat_ofNat']
      omega
    · split <;>
      · refine ⟨_, _, ?_, rfl⟩
        simp only [UInt8.toNat_ofNat']
        omega

/-- The property is one of ASCII characters only. -/
def Ascii (p : Char → Bool) : Prop := ∀ c, p c → c.toNat < 128

theorem ascii_isDigit : Ascii Char.isDigit := fun _ h =>
  Nat.lt_of_le_of_lt (Char.isDigit_iff_toNat.mp h).2 (by decide)

theorem utf8Size_of_ascii {c : Char} (h : c.toNat < 128) : c.utf8Size = 1 :=
  Char.utf8Size_eq_one_iff.mpr (Nat.le_of_lt_succ h)

theorem exists_bytes_cons (c : Char) :
    ∃ b bs, (∀ cs, bytes (c :: cs) = b :: (bs ++ bytes cs)) ∧
      (∀ p, Ascii p → byteIs p b = p c) ∧ (c.toNat < 128 → bs = []) := by
  rcases encode_cases c with ⟨h, b, hb, hc⟩ | ⟨h, b, bs, hb, hc⟩
  · refine ⟨b, [], fun cs => by rw [bytes_cons, hc]; rfl, fun p _ => ?_, fun _ => rfl⟩
    rw [byteIs, hb]
  · refine ⟨b, bs, fun cs => by rw [bytes_cons, hc]; rfl, fun p hp => ?_,
      fun hlt => absurd hlt (Nat.not_lt.mpr h)⟩
    have hc : p c = false := Bool.eq_false_iff.mpr fun hpc => Nat.not_lt.mpr h (hp c hpc)
    have hb : p (Char.ofUInt8 b) = false := Bool.eq_false_iff.mpr fun hpb => by
      have hlt : b.toUInt32.toNat < 128 := hp _ hpb
      rw [UInt8.toNat_toUInt32] at hlt
      omega
    rw [byteIs, hb, hc]

theorem head?_bytes_any {p : Char → Bool} (hp : Ascii p) (cs : List Char) :
    (bytes cs).head?.any (byteIs p) = cs.head?.any p := by
  cases cs with
  | nil => rfl
  | cons c cs =>
    obtain ⟨b, bs, hbytes, hb, -⟩ := exists_bytes_cons c
    rw [hbytes, List.head?_cons, List.head?_cons, Option.any_some, Option.any_some, hb p hp]

theorem takeWhile_bytes {p : Char → Bool} (hp : Ascii p) (cs : List Char) :
    (bytes cs).takeWhile (byteIs p) = bytes (cs.takeWhile p) := by
  induction cs with
  | nil => rfl
  | cons c cs ih =>
    obtain ⟨b, bs, hbytes, hb, htail⟩ := exists_bytes_cons c
    rw [hbytes, List.takeWhile_cons, List.takeWhile_cons, hb p hp]
    by_cases hc : p c
    · obtain rfl := htail (hp c hc)
      rw [if_pos hc, if_pos hc, hbytes, List.nil_append, List.nil_append, ih]
    · rw [if_neg hc, if_neg hc]
      rfl

theorem getElem?_bytes_append (cs ds : List Char) :
    (bytes (cs ++ ds))[byteLength cs]? = (bytes ds).head? := by
  rw [bytes_append, ← length_bytes, List.getElem?_append_right (Nat.le_refl _), Nat.sub_self,
    List.head?_eq_getElem?]

theorem bytesFrom?_append (cs ds : List Char) :
    bytesFrom? (byteLength cs) (bytes (cs ++ ds)) = some (bytes ds) := by
  rw [bytesFrom?, bytes_append, ← length_bytes, List.length_append, if_pos (Nat.le_add_right _ _),
    List.drop_left]

end Formula.Text

namespace Formula.Token

open Text

def isMark (c : Char) : Bool := c = 'e' || c = 'E'

def isSign (c : Char) : Bool := c = '+' || c = '-'

def isPoint (c : Char) : Bool := c = '.'

/-- The index past the digits that stand from `stop` on, with one point among them unless there
was one before. -/
def mantissaEnd (bs : List UInt8) (stop : Nat) (dotted : Bool) : Nat :=
  match h : bs[stop]? with
  | none => stop
  | some b =>
    if byteIs Char.isDigit b then mantissaEnd bs (stop + 1) dotted
    else if byteIs isPoint b && !dotted then mantissaEnd bs (stop + 1) true
    else stop
termination_by bs.length - stop
decreasing_by all_goals have hlt := (List.getElem?_eq_some_iff.mp h).1; omega

def digitBefore? (bs : List UInt8) (stop : Nat) : Option Bool :=
  if stop = 0 then some false else bs[stop - 1]?.map (byteIs Char.isDigit)

/-- The index past the exponent with its mark at `stop`, which is none if it has no digits. -/
def exponentEnd? (bs : List UInt8) (stop : Nat) : Option Nat := do
  let start := if bs[stop + 1]?.any (byteIs isSign) then stop + 2 else stop + 1
  let tail ← bytesFrom? start bs
  let digits := (tail.takeWhile (byteIs Char.isDigit)).length
  some (if digits = 0 then stop else start + digits)

/-- The number of bytes of the number in front, or nothing if an index is out of range. -/
def numberLength? (bs : List UInt8) : Option Nat := do
  let stop := mantissaEnd bs 0 false
  let afterDigit ← digitBefore? bs stop
  if afterDigit && bs[stop]?.any (byteIs isMark) then exponentEnd? bs stop else some stop

theorem ascii_isMark : Ascii isMark := by
  intro c h
  simp only [isMark, Bool.or_eq_true, decide_eq_true_eq] at h
  rcases h with rfl | rfl <;> decide

theorem ascii_isSign : Ascii isSign := by
  intro c h
  simp only [isSign, Bool.or_eq_true, decide_eq_true_eq] at h
  rcases h with rfl | rfl <;> decide

theorem ascii_isPoint : Ascii isPoint := by
  intro c h
  obtain rfl : c = '.' := by simpa [isPoint] using h
  decide

theorem mantissaEnd_of_none {bs : List UInt8} {stop : Nat} (h : bs[stop]? = none)
    (dotted : Bool) : mantissaEnd bs stop dotted = stop := by
  rw [mantissaEnd]
  split
  · rfl
  · simp_all

theorem mantissaEnd_of_some {bs : List UInt8} {stop : Nat} {b : UInt8} (h : bs[stop]? = some b)
    (dotted : Bool) : mantissaEnd bs stop dotted =
      if byteIs Char.isDigit b then mantissaEnd bs (stop + 1) dotted
      else if byteIs isPoint b && !dotted then mantissaEnd bs (stop + 1) true
      else stop := by
  rw [mantissaEnd]
  split <;> simp_all

theorem getElem?_of_drop {bs tail : List UInt8} {stop : Nat} {b : UInt8}
    (h : bs.drop stop = b :: tail) : bs[stop]? = some b ∧ bs.drop (stop + 1) = tail := by
  constructor
  · rw [← Nat.add_zero stop, ← List.getElem?_drop, h]
    rfl
  · rw [← List.tail_drop, h]
    rfl

theorem getElem?_of_drop_nil {bs : List UInt8} {stop : Nat} (h : bs.drop stop = []) :
    bs[stop]? = none := List.getElem?_eq_none (List.drop_eq_nil_iff.mp h)

/-- What the loop passes over, by characters. -/
def mantissaFrom (dotted : Bool) : List Char → List Char
  | [] => []
  | c :: cs =>
    if c.isDigit then c :: mantissaFrom dotted cs
    else if isPoint c && !dotted then c :: mantissaFrom true cs
    else []

theorem mantissaEnd_eq {bs : List UInt8} {stop : Nat} {cs : List Char}
    (h : bs.drop stop = bytes cs) (dotted : Bool) :
    mantissaEnd bs stop dotted = stop + byteLength (mantissaFrom dotted cs) := by
  induction cs generalizing stop dotted with
  | nil => rw [mantissaEnd_of_none (getElem?_of_drop_nil h)]; rfl
  | cons c cs ih =>
    obtain ⟨b, tail, hbytes, hb, htail⟩ := exists_bytes_cons c
    rw [hbytes] at h
    obtain ⟨hget, hdrop⟩ := getElem?_of_drop h
    rw [mantissaEnd_of_some hget, hb _ ascii_isDigit, hb _ ascii_isPoint, mantissaFrom]
    -- A character that is passed over is one byte, so that the next one starts at the next index.
    have hpass (hascii : c.toNat < 128) (dotted : Bool) :
        mantissaEnd bs (stop + 1) dotted =
          stop + byteLength (c :: mantissaFrom dotted cs) := by
      obtain rfl := htail hascii
      rw [ih hdrop, byteLength, utf8Size_of_ascii hascii, Nat.add_assoc]
    by_cases hc : c.isDigit
    · rw [if_pos hc, if_pos hc, hpass (ascii_isDigit c hc)]
    · rw [if_neg hc, if_neg hc]
      by_cases hp : (isPoint c && !dotted) = true
      · rw [if_pos hp, if_pos hp, hpass (ascii_isPoint c (Bool.and_eq_true_iff.mp hp).1)]
      · rw [if_neg hp, if_neg hp]
        rfl

theorem mantissaFrom_true (cs : List Char) : mantissaFrom true cs = cs.takeWhile Char.isDigit := by
  induction cs with
  | nil => rfl
  | cons c cs ih =>
    rw [mantissaFrom, ih, Bool.not_true, Bool.and_false, List.takeWhile_cons]
    rfl

theorem mantissaFrom_false (cs : List Char) : mantissaFrom false cs = (takeMantissa cs).1 := by
  induction cs with
  | nil => rfl
  | cons c cs ih =>
    rw [mantissaFrom, ih, mantissaFrom_true, Bool.not_false, Bool.and_true]
    unfold takeMantissa
    by_cases hc : c.isDigit
    · simp only [List.takeWhile_cons, List.dropWhile_cons, hc, if_true]
      split <;> rfl
    · by_cases hp : c = '.'
      · subst hp
        rfl
      · simp [hc, hp, isPoint]

theorem takeSign_cases (cs : List Char) :
    (cs.head?.any isSign ∧ ∃ c, takeSign cs = ([c], cs.tail) ∧ c.toNat < 128) ∨
    (¬ cs.head?.any isSign ∧ takeSign cs = ([], cs)) := by
  unfold takeSign
  split
  · exact .inl ⟨rfl, _, rfl, by decide⟩
  · exact .inl ⟨rfl, _, rfl, by decide⟩
  · rename_i hp hm
    refine .inr ⟨?_, rfl⟩
    cases cs with
    | nil => simp
    | cons c cs =>
      have hplus : c ≠ '+' := fun h => hp cs (by rw [h])
      have hminus : c ≠ '-' := fun h => hm cs (by rw [h])
      simp [isSign, hplus, hminus]

theorem getElem?_last {cs ds : List Char} {c : Char} (h : cs.getLast? = some c)
    (hc : c.toNat < 128) :
    (bytes (cs ++ ds))[byteLength cs - 1]?.map (byteIs Char.isDigit) = some c.isDigit := by
  obtain ⟨init, rfl⟩ := List.getLast?_eq_some_iff.mp h
  obtain ⟨b, tail, hbytes, hb, -⟩ := exists_bytes_cons c
  have hlength : byteLength (init ++ [c]) - 1 = byteLength init := by
    rw [byteLength_append, byteLength, byteLength, utf8Size_of_ascii hc]
    rfl
  rw [hlength, List.append_assoc, getElem?_bytes_append, List.singleton_append, hbytes,
    List.head?_cons, Option.map_some, hb _ ascii_isDigit]

theorem digitBefore?_bytes {m : List Char} (hm : ∀ c ∈ m, c.isDigit ∨ c = '.')
    (rest : List Char) :
    digitBefore? (bytes (m ++ rest)) (byteLength m) = some (m.getLast?.any Char.isDigit) := by
  rw [digitBefore?]
  cases h : m.getLast? with
  | none =>
    obtain rfl := List.getLast?_eq_none_iff.mp h
    rfl
  | some c =>
    have hmem := List.mem_of_getLast? h
    have hascii : c.toNat < 128 := by
      rcases hm c hmem with hd | rfl
      · exact ascii_isDigit c hd
      · decide
    rw [if_neg (Nat.ne_of_gt (byteLength_pos (List.ne_nil_of_mem hmem))),
      getElem?_last h hascii, Option.any_some]

theorem takeExponent_of_not_isMark {c : Char} (h : ¬ isMark c) (cs : List Char) :
    takeExponent (c :: cs) = ([], c :: cs) := by
  have hc : ¬ (c = 'e' ∨ c = 'E') := by simpa [isMark] using h
  rw [takeExponent]
  exact if_neg hc

theorem takeExponent_of_isMark {c : Char} (h : isMark c) (cs : List Char) :
    (takeExponent (c :: cs)).1 =
      if (takeSign cs).2.takeWhile Char.isDigit = [] then []
      else c :: ((takeSign cs).1 ++ (takeSign cs).2.takeWhile Char.isDigit) := by
  have hc : c = 'e' ∨ c = 'E' := by simpa [isMark] using h
  rw [takeExponent, if_pos hc]
  simp only
  split <;> rfl

theorem byteLength_eq_zero_iff {cs : List Char} : byteLength cs = 0 ↔ cs = [] := by
  refine ⟨fun h => ?_, fun h => h ▸ rfl⟩
  by_contra hne
  exact Nat.ne_of_gt (byteLength_pos hne) h

theorem exponentStart_eq {c : Char} (hc : c.toNat < 128) (m cs : List Char) :
    (if (bytes (m ++ c :: cs))[byteLength m + 1]?.any (byteIs isSign) then byteLength m + 2
      else byteLength m + 1) = byteLength (m ++ c :: (takeSign cs).1) := by
  have hone : byteLength (m ++ [c]) = byteLength m + 1 := by
    rw [byteLength_append, byteLength, byteLength, utf8Size_of_ascii hc]
  rw [List.append_cons, ← hone, getElem?_bytes_append, head?_bytes_any ascii_isSign]
  rcases takeSign_cases cs with ⟨hsign, d, hd, hascii⟩ | ⟨hsign, hd⟩
  · rw [if_pos hsign, hd, List.append_cons, byteLength_append, hone, byteLength, byteLength,
      utf8Size_of_ascii hascii]
  · rw [if_neg hsign, hd]

theorem exponentEnd?_bytes {c : Char} (hc : isMark c) (m cs : List Char) :
    exponentEnd? (bytes (m ++ c :: cs)) (byteLength m) =
      some (byteLength m + byteLength (takeExponent (c :: cs)).1) := by
  have hcut : m ++ c :: cs = (m ++ c :: (takeSign cs).1) ++ (takeSign cs).2 := by
    rw [List.append_assoc, List.cons_append, takeSign_append]
  simp only [exponentEnd?, exponentStart_eq (ascii_isMark c hc)]
  rw [hcut, bytesFrom?_append, takeExponent_of_isMark hc]
  simp only [Option.bind_eq_bind, Option.bind_some, takeWhile_bytes ascii_isDigit, length_bytes,
    byteLength_eq_zero_iff]
  split
  · rfl
  · rw [← byteLength_append, ← byteLength_append, List.append_assoc, List.cons_append]

/-- The length that is counted on the bytes is that of the literal. -/
theorem numberLength?_bytes (cs : List Char) :
    numberLength? (bytes cs) = some (byteLength (takeNumber cs).1) := by
  have hm : ∀ c ∈ (takeMantissa cs).1, c.isDigit ∨ c = '.' := fun c =>
    isDigit_or_point_of_mem_takeMantissa
  have happend := takeMantissa_append cs
  rw [numberLength?, mantissaEnd_eq rfl, Nat.zero_add, mantissaFrom_false, takeNumber]
  rcases hcut : takeMantissa cs with ⟨m, rest⟩
  rw [hcut] at hm happend
  obtain rfl : m ++ rest = cs := happend
  simp only [digitBefore?_bytes hm, getElem?_bytes_append, head?_bytes_any ascii_isMark,
    Option.bind_eq_bind, Option.bind_some]
  by_cases hlast : m.getLast?.any Char.isDigit
  · rcases rest with _ | ⟨c, rest⟩
    · simp [hlast, takeExponent]
    · by_cases hmark : isMark c
      · rw [exponentEnd?_bytes hmark]
        simp [hlast, hmark, byteLength_append]
      · rw [takeExponent_of_not_isMark hmark]
        simp [hlast, hmark]
  · simp [hlast]

end Formula.Token

namespace Formula

open Text (byteLength bytes isBlank trimStart splitAt? difference?)
open Token (inName lexeme numberKind ofText punctuation? startsName takeNumber)

structure ByteCursor where
  current : Token
  rest : List Char
  byte : Nat

theorem Token.ascii_of_punctuation? {c : Char} {kind : Token.Kind}
    (h : punctuation? c = some kind) : c.toNat < 128 := by
  unfold punctuation? at h
  split at h <;> first | decide | cases h

namespace ByteCursor

def take? (kind : Token.Kind) (length : Nat) (rest : List Char) (byte : Nat) :
    Option ByteCursor := do
  let (literal, rest) ← splitAt? length rest
  some ⟨⟨kind, String.ofList literal, byte⟩, rest, byte + length⟩

def lexeme? (c : Char) (cs : List Char) (byte : Nat) : Option ByteCursor :=
  match punctuation? c with
  | some kind => take? kind 1 (c :: cs) byte
  | none =>
    if startsName c then take? .name (byteLength ((c :: cs).takeWhile inName)) (c :: cs) byte
    else if c.isDigit || c = '.' then do
      let length ← Token.numberLength? (bytes (c :: cs))
      let (literal, _) ← splitAt? length (c :: cs)
      take? (numberKind literal) length (c :: cs) byte
    else take? .invalid c.utf8Size (c :: cs) byte

/-- The first token of a text whose first byte has the given offset, or nothing if a cut is not
between two characters or an index is out of range. -/
def scan? (rest : List Char) (byte : Nat) : Option ByteCursor := do
  let skipped ← difference? (byteLength rest) (byteLength (trimStart rest))
  match trimStart rest with
  | [] => some ⟨⟨.endOfInput, "", byte + skipped⟩, [], byte + skipped⟩
  | c :: cs => lexeme? c cs (byte + skipped)

def advance? (cursor : ByteCursor) : Option ByteCursor := scan? cursor.rest cursor.byte

def after? (source : Text.Source) : Nat → Option ByteCursor
  | 0 => scan? source.text.toList 0
  | n + 1 => do advance? (← after? source n)

theorem take?_append (kind : Token.Kind) (literal rest : List Char) (byte : Nat) :
    take? kind (byteLength literal) (literal ++ rest) byte =
      some ⟨⟨kind, String.ofList literal, byte⟩, rest, byte + byteLength literal⟩ := by
  rw [take?, Text.splitAt?_append]
  rfl

/-- No rule takes a length at which the text cannot be cut. -/
theorem lexeme?_eq (c : Char) (cs : List Char) (byte : Nat) :
    lexeme? c cs byte =
      some ⟨⟨(lexeme c cs).1, String.ofList (lexeme c cs).2.1, byte⟩, (lexeme c cs).2.2,
        byte + byteLength (lexeme c cs).2.1⟩ := by
  unfold lexeme? lexeme
  cases hp : punctuation? c with
  | some kind =>
    have hsize : byteLength [c] = 1 := Text.utf8Size_of_ascii (Token.ascii_of_punctuation? hp)
    exact hsize ▸ take?_append kind [c] cs byte
  | none =>
    by_cases hs : startsName c
    · have hname : inName c := by simp [inName, hs]
      have h := take?_append .name (c :: cs.takeWhile inName) (cs.dropWhile inName) byte
      rw [List.cons_append, List.takeWhile_append_dropWhile] at h
      simp only [hs, if_true, List.takeWhile_cons_of_pos hname]
      exact h
    · by_cases hd : (c.isDigit || c = '.') = true
      · have h := take?_append (numberKind (takeNumber (c :: cs)).1) (takeNumber (c :: cs)).1
          (takeNumber (c :: cs)).2 byte
        have hcut := Text.splitAt?_append (takeNumber (c :: cs)).1 (takeNumber (c :: cs)).2
        rw [Token.takeNumber_append] at h hcut
        simp only [hs, hd, if_true, Token.numberLength?_bytes, Option.bind_eq_bind,
          Option.bind_some, hcut]
        exact h
      · simp only [hs, hd]
        exact take?_append .invalid [c] cs byte

theorem scan?_eq (rest : List Char) (byte : Nat) :
    scan? rest byte = some ⟨(Token.scan byte rest).1, (Token.scan byte rest).2,
      (Token.scan byte rest).1.stop⟩ := by
  have hblanks := Text.byteLength_trimStart rest
  have hskipped : difference? (byteLength rest) (byteLength (trimStart rest)) =
      some (byteLength (rest.takeWhile isBlank)) := by
    rw [difference?, if_pos (by omega)]
    exact congrArg some (by omega)
  rw [scan?, hskipped]
  cases h : trimStart rest with
  | nil =>
    rw [h] at hblanks
    rw [Token.scan_of_trimStart_nil h, ← hblanks]
    rfl
  | cons c cs =>
    rw [Token.scan_of_trimStart_cons h, Token.stop_mk]
    exact lexeme?_eq c cs _

/-- The cursor never fails, and it goes where the cursor by characters goes. -/
theorem after?_eq (source : Text.Source) (k : Nat) :
    after? source k = some ⟨(Cursor.advance^[k] (Cursor.start source)).current,
      (Cursor.advance^[k] (Cursor.start source)).rest,
      (Cursor.advance^[k] (Cursor.start source)).current.stop⟩ := by
  induction k with
  | zero => exact scan?_eq source.text.toList 0
  | succ k ih =>
    rw [after?, ih, Function.iterate_succ_apply']
    exact scan?_eq _ _

/-- The tokens of a text tile it: there are no more of them than bytes, they are not empty, have no
blank in them, stand in the text where they say in this order, and all that is between them is
blank. The cursor by bytes comes to these tokens one by one and then stays at the end; no index and
no cut in it is ever out of range or inside a character, and its rest starts at its byte. -/
theorem tokens_tile_text (source : Text.Source) :
    (ofText source.text).length ≤ source.size ∧
    Token.Tiles 0 source.text.toList (ofText source.text) ∧
    (ofText source.text).Pairwise (fun t u => t.offset < u.offset ∧ t.stop ≤ u.offset) ∧
    (∀ t ∈ ofText source.text, t.kind ≠ .endOfInput ∧ t.literal.toList ≠ [] ∧
      (∀ c ∈ t.literal.toList, isBlank c = false) ∧
      ∃ before after, splitAt? t.offset source.text.toList =
          some (before, t.literal.toList ++ after) ∧
        splitAt? t.stop source.text.toList = some (before ++ t.literal.toList, after)) ∧
    ∀ k, ∃ state before, after? source k = some state ∧
      state.current = (ofText source.text).getD k ⟨.endOfInput, "", source.size⟩ ∧
      state.current = (Cursor.advance^[k] (Cursor.start source)).current ∧
      state.rest = (Cursor.advance^[k] (Cursor.start source)).rest ∧
      splitAt? state.byte source.text.toList = some (before, state.rest) := by
  have htiles := Token.tiles_scanAll 0 source.text.toList
  refine ⟨htiles.length_le, htiles, ?_, fun t ht => ?_, fun k => ?_⟩
  · apply (Token.pairwise_scanAll 0 source.text.toList).imp_of_mem
    intro t u ht _ htu
    exact ⟨Nat.lt_of_lt_of_le (Token.bounds_of_mem_scanAll ht).2.1 htu, htu⟩
  · obtain ⟨hne, hplain⟩ := htiles.not_isBlank ht
    obtain ⟨before, after, happend, hoffset⟩ := htiles.exists_append ht
    rw [Nat.zero_add] at hoffset
    have hstop : byteLength (before ++ t.literal.toList) = t.stop := by
      rw [Text.byteLength_append, ← hoffset]
      rfl
    refine ⟨Token.not_isEnd_of_mem_scanAll ht, hne, hplain, before, after, ?_, ?_⟩
    · exact Text.splitAt?_eq_some_iff.mpr ⟨happend, hoffset.symm⟩
    · exact Text.splitAt?_eq_some_iff.mpr ⟨by rw [happend, List.append_assoc], hstop⟩
  · obtain ⟨before, hsplit, hstop⟩ := (Cursor.atPlace_iterate source k).splits
    exact ⟨_, before, after?_eq source k, Cursor.current_iterate_start source k, rfl, rfl,
      Text.splitAt?_eq_some_iff.mpr ⟨hsplit, hstop⟩⟩

end ByteCursor

end Formula
