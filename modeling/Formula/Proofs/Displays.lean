import Formula.Proofs.Relexing
import Formula.Proofs.Written

/-! The line that describes a token. It says what the token is, shows the text it was read from and,
if it is a number, a text from which its value is read back. As no blank stands in the first two
columns, they can be told apart, and the text by itself gives the kind again: two tokens with the
same line differ in their place at most. -/

namespace Formula.Token

inductive Labels : Kind → String → Prop
  | endOfInput : Labels .endOfInput "EOF"
  | plus : Labels .plus "PLUS"
  | minus : Labels .minus "MINUS"
  | star : Labels .star "STAR"
  | slash : Labels .slash "SLASH"
  | leftParen : Labels .leftParen "LEFT_PAREN"
  | rightParen : Labels .rightParen "RIGHT_PAREN"
  | comma : Labels .comma "COMMA"
  | name : Labels .name "IDENTIFIER"
  | number {value} : Labels (.number value) "NUMBER"
  | invalid : Labels .invalid "INVALID"

/-- The last column: a whole number has one decimal, and other kinds than numbers have no value. -/
inductive Shows : Kind → String → Prop
  | whole {value} : Number.isWhole value → Number.ReadsBack (Number.plain value) value →
      Shows (.number value) (Number.plain value ++ ".0")
  | number {value} : ¬ Number.isWhole value → Number.ReadsBack (Number.plain value) value →
      Shows (.number value) (Number.plain value)
  | noValue {kind} : (∀ value, kind ≠ .number value) → Shows kind "null"

/-- The line has three columns, with the text of the token in the middle. -/
def Displays (t : Token) (line : String) : Prop :=
  ∃ label shown, Labels t.kind label ∧ Shows t.kind shown ∧
    line = label ++ " " ++ t.literal ++ " " ++ shown

theorem labels_label (kind : Kind) : Labels kind kind.label := by
  cases kind <;> constructor

theorem shows_valueText (kind : Kind) : Shows kind kind.valueText := by
  cases kind with
  | number value =>
    rw [Kind.valueText]
    split
    · exact .whole ‹_› (Number.readsBack_plain value)
    · exact .number ‹_› (Number.readsBack_plain value)
  | _ => exact .noValue nofun

theorem displays_describe (t : Token) : Displays t t.describe :=
  ⟨_, _, labels_label t.kind, shows_valueText t.kind, rfl⟩

theorem Labels.not_space {kind : Kind} {label : String} (h : Labels kind label) :
    ' ' ∉ label.toList := by
  cases h <;> decide

theorem Labels.unbroken {kind : Kind} {label : String} (h : Labels kind label) :
    '\n' ∉ label.toList := by
  cases h <;> decide

theorem Shows.unbroken {kind : Kind} {shown : String} (h : Shows kind shown) :
    '\n' ∉ shown.toList := by
  cases h with
  | whole _ hread => simpa using hread.unbroken
  | number _ hread => exact hread.unbroken
  | noValue => decide

section

variable {text other line : String} {t u : Token}

theorem not_mem_literal (ht : t ∈ ofText text) {c : Char} (hc : Text.isBlank c) :
    c ∉ t.literal.toList := fun hmem => by
  have hno := ((tiles_scanAll 0 text.toList).not_isBlank ht).2 c hmem
  rw [hc] at hno
  cases hno

theorem Displays.unbroken (ht : t ∈ ofText text) (h : Displays t line) : '\n' ∉ line.toList := by
  obtain ⟨label, shown, hlabel, hshown, rfl⟩ := h
  have hliteral := not_mem_literal ht (c := '\n') (by decide)
  simp [hlabel.unbroken, hshown.unbroken, hliteral]

theorem eq_of_append_cons {α : Type} {a : α} {xs ys : List α} : (x y : List α) → a ∉ x → a ∉ y →
    x ++ a :: xs = y ++ a :: ys → x = y ∧ xs = ys
  | [], [], _, _, h => ⟨rfl, (List.cons.inj h).2⟩
  | [], _ :: _, _, hy, h => absurd (List.cons.inj h).1 (List.ne_of_not_mem_cons hy)
  | _ :: _, [], hx, _, h => absurd (List.cons.inj h).1.symm (List.ne_of_not_mem_cons hx)
  | b :: x, c :: y, hx, hy, h => by
    obtain ⟨rfl, htail⟩ := List.cons.inj h
    obtain ⟨rfl, hrest⟩ := eq_of_append_cons x y (List.not_mem_of_not_mem_cons hx)
      (List.not_mem_of_not_mem_cons hy) htail
    exact ⟨rfl, hrest⟩

theorem Displays.literal_eq (ht : t ∈ ofText text) (hu : u ∈ ofText other) (h : Displays t line)
    (h' : Displays u line) : t.literal = u.literal := by
  obtain ⟨label, shown, hlabel, -, rfl⟩ := h
  obtain ⟨label', shown', hlabel', -, heq⟩ := h'
  have hcolumns : label.toList ++ ' ' :: (t.literal.toList ++ ' ' :: shown.toList) =
      label'.toList ++ ' ' :: (u.literal.toList ++ ' ' :: shown'.toList) := by
    simpa using congrArg String.toList heq
  have hrest := (eq_of_append_cons _ _ hlabel.not_space hlabel'.not_space hcolumns).2
  have hblank : Text.isBlank ' ' = true := by decide
  exact String.toList_inj.mp
    (eq_of_append_cons _ _ (not_mem_literal ht hblank) (not_mem_literal hu hblank) hrest).1

/-- The text of a token tells its kind. -/
theorem same_of_literal (ht : t ∈ ofText text) (hu : u ∈ ofText other)
    (h : t.literal = u.literal) : Same t u := by
  obtain ⟨c, cs, hc, -, hl⟩ := lone_of_mem_scanAll ht
  obtain ⟨d, ds, hd, -, hl'⟩ := lone_of_mem_scanAll hu
  rw [hc, hd, String.ofList_inj] at h
  obtain ⟨rfl, rfl⟩ := List.cons.inj h
  exact ⟨congrArg Prod.fst (hl'.symm.trans hl), by rw [hc, hd]⟩

theorem Displays.same (ht : t ∈ ofText text) (hu : u ∈ ofText other) (h : Displays t line)
    (h' : Displays u line) : Same t u :=
  same_of_literal ht hu (h.literal_eq ht hu h')

/-- Lines tell the tokens that they display. -/
theorem forall₂_same {ts us : List Token} {lines : List String} (hts : ∀ t ∈ ts, t ∈ ofText text)
    (hus : ∀ u ∈ us, u ∈ ofText other) (h : List.Forall₂ Displays ts lines)
    (h' : List.Forall₂ Displays us lines) : List.Forall₂ Same ts us := by
  induction h generalizing us with
  | nil =>
    cases h'
    exact .nil
  | cons hline _ ih =>
    cases h' with
    | cons hline' hrest' =>
      obtain ⟨ht, hts⟩ := List.forall_mem_cons.mp hts
      obtain ⟨hu, hus⟩ := List.forall_mem_cons.mp hus
      exact .cons (hline.same ht hu hline') (ih hts hus hrest')

end

end Formula.Token
