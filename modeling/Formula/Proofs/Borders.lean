import Formula.Proofs.Offsets
import Mathlib

/-! Cutting a text in two. In front of a blank, a parenthesis, a comma, `*` or `/` every token ends,
so that the tokens of the two parts are those of the whole. In front of other characters a name or a
number may go on. -/

namespace Formula.Token

open Text (isBlank trimStart byteLength)

/-- The characters in front of which every token ends. -/
def isBorder (c : Char) : Bool :=
  isBlank c || c = '(' || c = ')' || c = ',' || c = '*' || c = '/'

def Separate (cs : List Char) : Prop := ∀ c ∈ cs.head?, isBorder c

theorem isBlank_of_toNat {c : Char} (hlow : 0x20 < c.toNat) (hhigh : c.toNat < 0x85) :
    isBlank c = false := by
  simp [isBlank, Text.blankRanges]
  omega

theorem isBlank_of_inName {c : Char} (h : inName c) : isBlank c = false := by
  have h : (c.isAlpha || c = '_') || c.isDigit := h
  have hrange : 0x20 < c.toNat ∧ c.toNat < 0x85 := by
    simp only [Char.isAlpha, Char.isUpper, Char.isLower, Char.isDigit, Bool.or_eq_true,
      Bool.and_eq_true, decide_eq_true_eq, UInt32.le_iff_toNat_le, ge_iff_le] at h
    rcases h with ((h | h) | rfl) | h
    · exact ⟨Nat.lt_of_lt_of_le (by decide) h.1, Nat.lt_of_le_of_lt h.2 (by decide)⟩
    · exact ⟨Nat.lt_of_lt_of_le (by decide) h.1, Nat.lt_of_le_of_lt h.2 (by decide)⟩
    · decide
    · exact ⟨Nat.lt_of_lt_of_le (by decide) h.1, Nat.lt_of_le_of_lt h.2 (by decide)⟩
  exact isBlank_of_toNat hrange.1 hrange.2

theorem Separate.ne {cs : List Char} (h : Separate cs) {d : Char} (hd : isBorder d = false) :
    ∀ c ∈ cs.head?, c ≠ d := by
  rintro c hc rfl
  rw [h c hc] at hd
  cases hd

theorem Separate.not_inName {cs : List Char} (h : Separate cs) :
    ∀ c ∈ cs.head?, inName c = false := by
  intro c hc
  have hb := h c hc
  simp only [isBorder, Bool.or_eq_true, decide_eq_true_eq] at hb
  rcases hb with ((((hb | rfl) | rfl) | rfl) | rfl) | rfl
  · by_contra hn
    simp [isBlank_of_inName (by simpa using hn)] at hb
  all_goals decide

theorem Separate.not_isDigit {cs : List Char} (h : Separate cs) :
    ∀ c ∈ cs.head?, c.isDigit = false := by
  intro c hc
  have := h.not_inName c hc
  simp_all [inName]

theorem takeWhile_append_of_head {α : Type} {p : α → Bool} {xs ys : List α}
    (h : ∀ y ∈ ys.head?, p y = false) : (xs ++ ys).takeWhile p = xs.takeWhile p := by
  induction xs with
  | nil =>
    rcases ys with _ | ⟨y, ys⟩
    · rfl
    · simp [h y rfl]
  | cons x xs ih => simp only [List.cons_append, List.takeWhile_cons, ih]

theorem dropWhile_append_of_head {α : Type} {p : α → Bool} {xs ys : List α}
    (h : ∀ y ∈ ys.head?, p y = false) : (xs ++ ys).dropWhile p = xs.dropWhile p ++ ys := by
  induction xs with
  | nil =>
    rcases ys with _ | ⟨y, ys⟩
    · rfl
    · simp [h y rfl]
  | cons x xs ih =>
    simp only [List.cons_append, List.dropWhile_cons, ih]
    split <;> rfl

theorem takeMantissa_append_border {ds : List Char} (h : Separate ds) (cs : List Char) :
    takeMantissa (cs ++ ds) = ((takeMantissa cs).1, (takeMantissa cs).2 ++ ds) := by
  have hd := h.not_isDigit
  unfold takeMantissa
  simp only [takeWhile_append_of_head hd, dropWhile_append_of_head hd]
  rcases cs.dropWhile Char.isDigit with _ | ⟨c, rest⟩
  · rcases ds with _ | ⟨d, ds⟩
    · rfl
    · have hpoint : d ≠ '.' := h.ne (by decide) d rfl
      simp [hpoint]
  · by_cases hc : c = '.'
    · subst hc
      simp [takeWhile_append_of_head hd, dropWhile_append_of_head hd]
    · simp [hc]

theorem takeSign_append_border {ds : List Char} (h : Separate ds) (cs : List Char) :
    takeSign (cs ++ ds) = ((takeSign cs).1, (takeSign cs).2 ++ ds) := by
  rcases cs with _ | ⟨c, cs⟩
  · rcases ds with _ | ⟨d, ds⟩
    · rfl
    · have hp : d ≠ '+' := h.ne (by decide) d rfl
      have hm : d ≠ '-' := h.ne (by decide) d rfl
      simp [takeSign, hp, hm]
  · by_cases hp : c = '+'
    · subst hp
      rfl
    · by_cases hm : c = '-'
      · subst hm
        rfl
      · simp [takeSign, hp, hm]

theorem takeExponent_append_border {ds : List Char} (h : Separate ds) (cs : List Char) :
    takeExponent (cs ++ ds) = ((takeExponent cs).1, (takeExponent cs).2 ++ ds) := by
  have hd := h.not_isDigit
  rcases cs with _ | ⟨c, cs⟩
  · rcases ds with _ | ⟨d, ds⟩
    · rfl
    · have he : d ≠ 'e' := h.ne (by decide) d rfl
      have hE : d ≠ 'E' := h.ne (by decide) d rfl
      simp [takeExponent, he, hE]
  · simp only [List.cons_append, takeExponent, takeSign_append_border h,
      takeWhile_append_of_head hd, dropWhile_append_of_head hd]
    split
    · split <;> rfl
    · rfl

theorem takeNumber_append_border {ds : List Char} (h : Separate ds) (cs : List Char) :
    takeNumber (cs ++ ds) = ((takeNumber cs).1, (takeNumber cs).2 ++ ds) := by
  unfold takeNumber
  simp only [takeMantissa_append_border h, takeExponent_append_border h]
  split <;> rfl

theorem lexeme_append_border {ds : List Char} (h : Separate ds) (c : Char) (cs : List Char) :
    lexeme c (cs ++ ds) = ((lexeme c cs).1, (lexeme c cs).2.1, (lexeme c cs).2.2 ++ ds) := by
  unfold lexeme
  split
  · rfl
  · split
    · rw [takeWhile_append_of_head h.not_inName, dropWhile_append_of_head h.not_inName]
    · split
      · rw [← List.cons_append]
        simp only [takeNumber_append_border h]
      · rfl

/-- What the lexeme that starts with `c` can be. -/
theorem lexeme_cases (c : Char) (cs : List Char) :
    (∃ kind, punctuation? c = some kind ∧ lexeme c cs = (kind, [c], cs)) ∨
    (startsName c ∧ lexeme c cs = (.name, c :: cs.takeWhile inName, cs.dropWhile inName)) ∨
    ((c.isDigit || c = '.') ∧ lexeme c cs = (numberKind (takeNumber (c :: cs)).1,
      (takeNumber (c :: cs)).1, (takeNumber (c :: cs)).2)) ∨
    lexeme c cs = (.invalid, [c], cs) := by
  unfold lexeme
  split
  · rename_i kind h
    exact .inl ⟨kind, h, rfl⟩
  · split
    · rename_i h
      exact .inr (.inl ⟨h, rfl⟩)
    · split
      · rename_i h
        exact .inr (.inr (.inl ⟨h, rfl⟩))
      · exact .inr (.inr (.inr rfl))

theorem punctuation?_ne {c : Char} {kind : Kind} (h : punctuation? c = some kind) :
    kind ≠ .endOfInput ∧ kind ≠ .name ∧ ∀ value, kind ≠ .number value := by
  unfold punctuation? at h
  split at h <;> cases h <;> simp

theorem numberKind_cases (literal : List Char) :
    (∃ value, Number.read literal = .ok value ∧ numberKind literal = .number value) ∨
      numberKind literal = .invalid := by
  unfold numberKind
  split
  · rename_i value h
    exact .inl ⟨value, h, rfl⟩
  · exact .inr rfl

theorem lexeme_ne_end (c : Char) (cs : List Char) : (lexeme c cs).1 ≠ .endOfInput := by
  rcases lexeme_cases c cs with ⟨kind, hk, h⟩ | ⟨-, h⟩ | ⟨-, h⟩ | h
  · rw [h]
    exact (punctuation?_ne hk).1
  · simp [h]
  · rcases numberKind_cases (takeNumber (c :: cs)).1 with ⟨value, -, hn⟩ | hn <;> simp [h, hn]
  · simp [h]

theorem isEnd_scan_iff {offset : Nat} {cs : List Char} :
    (scan offset cs).1.isEnd ↔ trimStart cs = [] := by
  cases h : trimStart cs with
  | nil => simp [scan_of_trimStart_nil h, isEnd]
  | cons c rest => simp [scan_of_trimStart_cons h, isEnd, lexeme_ne_end]

theorem scanAll_of_trimStart_nil {cs : List Char} (h : trimStart cs = []) (offset : Nat) :
    scanAll offset cs = [] := by
  rw [scanAll]
  exact if_pos (isEnd_scan_iff.mpr h)

theorem scanAll_nil (offset : Nat) : scanAll offset [] = [] := scanAll_of_trimStart_nil rfl offset

theorem scanAll_of_trimStart_cons {c : Char} {cs rest : List Char} (h : trimStart cs = c :: rest)
    (offset : Nat) :
    scanAll offset cs =
      (scan offset cs).1 :: scanAll (scan offset cs).1.stop (scan offset cs).2 := by
  rw [scanAll]
  exact if_neg (by simp [isEnd_scan_iff, h])

theorem scan_blanks_append {cs : List Char} (h : trimStart cs = []) (offset : Nat)
    (ds : List Char) : scan offset (cs ++ ds) = scan (offset + byteLength cs) ds := by
  have hall : ∀ c ∈ cs, isBlank c := List.dropWhile_eq_nil_iff.mp h
  rw [scan, scan, trimStart, List.dropWhile_append_of_pos hall, List.takeWhile_append_of_pos hall,
    Text.byteLength_append, Text.byteLength_append, ← Nat.add_assoc, ← Nat.add_assoc]
  rfl

theorem scanAll_blanks_append {cs : List Char} (h : trimStart cs = []) (offset : Nat)
    (ds : List Char) : scanAll offset (cs ++ ds) = scanAll (offset + byteLength cs) ds := by
  rw [scanAll, scan_blanks_append h]
  conv => rhs; rw [scanAll]

/-- What follows a character that is no blank does not change the blanks in front of it. -/
theorem trimStart_append {c : Char} {cs rest : List Char} (h : trimStart cs = c :: rest)
    (ds : List Char) :
    trimStart (cs ++ ds) = c :: (rest ++ ds) ∧
      (cs ++ ds).takeWhile isBlank = cs.takeWhile isBlank := by
  unfold trimStart at h ⊢
  induction cs with
  | nil => cases h
  | cons x cs ih =>
    rw [List.dropWhile_cons] at h
    rw [List.cons_append, List.dropWhile_cons, List.takeWhile_cons, List.takeWhile_cons]
    split at h
    · obtain ⟨hdrop, htake⟩ := ih h
      simp [*]
    · cases h
      simp [*]

theorem scan_append_border {c : Char} {cs ds rest : List Char} (h : trimStart cs = c :: rest)
    (hd : Separate ds) (offset : Nat) :
    scan offset (cs ++ ds) = ((scan offset cs).1, (scan offset cs).2 ++ ds) := by
  obtain ⟨htrim, hblanks⟩ := trimStart_append h ds
  rw [scan_of_trimStart_cons htrim, scan_of_trimStart_cons h, hblanks, lexeme_append_border hd]

/-- The tokens of a text that is cut in front of a border are those of its parts. -/
theorem scanAll_append {ds : List Char} (h : Separate ds) (offset : Nat) (cs : List Char) :
    scanAll offset (cs ++ ds) = scanAll offset cs ++ scanAll (offset + byteLength cs) ds := by
  -- Only blanks and the last token of the first part reach up to the border.
  fun_induction scanAll offset cs with
  | case1 offset cs first hend =>
    exact scanAll_blanks_append (isEnd_scan_iff.mp hend) offset ds
  | case2 offset cs first hend ih =>
    obtain ⟨c, rest, hc⟩ := List.exists_cons_of_ne_nil (mt isEnd_scan_iff.mpr hend)
    have hstop : first.1.stop + byteLength first.2 = offset + byteLength cs :=
      scan_stop_add offset cs
    rw [scanAll_of_trimStart_cons (trimStart_append hc ds).1, scan_append_border hc h,
      List.cons_append, ih, hstop]

theorem trimStart_cons {c : Char} (h : isBlank c = false) (cs : List Char) :
    trimStart (c :: cs) = c :: cs := by
  simp [trimStart, h]

theorem scanAll_cons {c : Char} (h : isBlank c = false) (offset : Nat) (cs : List Char) :
    scanAll offset (c :: cs) =
      ⟨(lexeme c cs).1, String.ofList (lexeme c cs).2.1, offset⟩ ::
        scanAll (offset + byteLength (lexeme c cs).2.1) (lexeme c cs).2.2 := by
  have hc := trimStart_cons h cs
  rw [scanAll_of_trimStart_cons hc, scan_of_trimStart_cons hc, stop_mk]
  simp [h, byteLength]

theorem scanAll_lexeme {c : Char} {cs : List Char} {kind : Kind} (h : isBlank c = false)
    (hl : lexeme c cs = (kind, c :: cs, [])) (offset : Nat) :
    scanAll offset (c :: cs) = [⟨kind, String.ofList (c :: cs), offset⟩] := by
  rw [scanAll_cons h, hl, scanAll_nil]

theorem isBlank_of_punctuation? {c : Char} {kind : Kind} (h : punctuation? c = some kind) :
    isBlank c = false := by
  unfold punctuation? at h
  split at h <;> first | rfl | cases h

theorem scanAll_punctuation {c : Char} {kind : Kind} (h : punctuation? c = some kind)
    (offset : Nat) (cs : List Char) :
    scanAll offset (c :: cs) =
      ⟨kind, String.ofList [c], offset⟩ :: scanAll (offset + c.utf8Size) cs := by
  rw [scanAll_cons (isBlank_of_punctuation? h)]
  simp [lexeme, h, byteLength]

theorem punctuation?_of_inName {c : Char} (h : inName c) : punctuation? c = none := by
  unfold punctuation?
  split <;> first | rfl | simp [inName, startsName] at h

theorem startsName_of_isDigit {c : Char} (h : c.isDigit) : startsName c = false := by
  have h9 : c.toNat ≤ '9'.toNat := (Char.isDigit_iff_toNat.mp h).2
  have hu : c.isUpper = false := decide_eq_false fun hA =>
    absurd (Nat.le_trans (show 'A'.toNat ≤ c.toNat from hA.1) h9) (by decide)
  have hl : c.isLower = false := by
    rw [Char.isLower, Bool.and_eq_false_iff]
    exact .inl (decide_eq_false fun ha =>
      absurd (Nat.le_trans (show 'a'.toNat ≤ c.toNat from ha) h9) (by decide))
  have hs : c ≠ '_' := by
    rintro rfl
    simp at h
  simp [startsName, Char.isAlpha, hu, hl, hs]

theorem scanAll_name {c : Char} {cs : List Char} (hc : startsName c) (hcs : ∀ d ∈ cs, inName d)
    (offset : Nat) :
    scanAll offset (c :: cs) = [⟨.name, String.ofList (c :: cs), offset⟩] := by
  have hname : inName c := by simp [inName, hc]
  refine scanAll_lexeme (isBlank_of_inName hname) ?_ offset
  simp [lexeme, punctuation?_of_inName hname, hc, List.takeWhile_eq_self_iff.mpr hcs,
    List.dropWhile_eq_nil_iff.mpr hcs]

end Formula.Token
