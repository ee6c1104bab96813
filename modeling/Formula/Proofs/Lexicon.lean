import Formula.Proofs.LongestMatch

/-! The lexical grammar. Blanks are skipped, and the first character behind them tells which token
starts there: one of a single character, the longest name, or the longest number. The tokens of a
text are those that the grammar allows, and it allows no others. -/

namespace Formula.Token

open Text (isBlank trimStart byteLength)

inductive IsSymbol : Char → Kind → Prop
  | plus : IsSymbol '+' .plus
  | minus : IsSymbol '-' .minus
  | star : IsSymbol '*' .star
  | slash : IsSymbol '/' .slash
  | leftParen : IsSymbol '(' .leftParen
  | rightParen : IsSymbol ')' .rightParen
  | comma : IsSymbol ',' .comma

/-- The characters with which a name or a number starts, and the symbols. -/
def InAlphabet (c : Char) : Prop :=
  (c.isAlpha ∨ c = '_') ∨ (c.isDigit ∨ c = '.') ∨ ∃ kind, IsSymbol c kind

/-- The kind and the text of the token at the front of a text that does not start with a blank. -/
inductive Lexes : List Char → Kind → List Char → Prop
  | symbol {c cs kind} : IsSymbol c kind → Lexes (c :: cs) kind [c]
  | name {c cs word} : c.isAlpha ∨ c = '_' → Longest IsWord (c :: cs) word →
      Lexes (c :: cs) .name word
  | number {c cs literal value} : c.isDigit ∨ c = '.' → Longest IsNumber (c :: cs) literal →
      literal ≠ ['.'] → Number.read literal = .ok value → Lexes (c :: cs) (.number value) literal
  | point {c cs} : c.isDigit ∨ c = '.' → Longest IsNumber (c :: cs) ['.'] →
      Lexes (c :: cs) .invalid ['.']
  | stray {c cs} : ¬ InAlphabet c → Lexes (c :: cs) .invalid [c]

/-- The tokens of a text whose first byte has the given offset. -/
inductive Cuts : Nat → List Char → List Token → Prop
  | nil {offset gap} : (∀ c ∈ gap, isBlank c) → Cuts offset gap []
  | cons {offset gap c cs kind literal rest tokens} : (∀ d ∈ gap, isBlank d) →
      isBlank c = false → Lexes (c :: cs) kind literal → c :: cs = literal ++ rest →
      Cuts (offset + byteLength gap + byteLength literal) rest tokens →
      Cuts offset (gap ++ c :: cs)
        (⟨kind, String.ofList literal, offset + byteLength gap⟩ :: tokens)

/-! What the lexeme is, by its first character. -/

theorem punctuation?_eq_some_iff {c : Char} {kind : Kind} :
    punctuation? c = some kind ↔ IsSymbol c kind := by
  constructor
  · intro h
    unfold punctuation? at h
    split at h <;> cases h <;> constructor
  · intro h
    cases h <;> rfl

theorem lexeme_of_symbol {c : Char} {kind : Kind} (h : IsSymbol c kind) (cs : List Char) :
    lexeme c cs = (kind, [c], cs) := by
  simp only [lexeme, punctuation?_eq_some_iff.mpr h]

theorem lexeme_of_name {c : Char} (hc : c.isAlpha ∨ c = '_') (cs : List Char) :
    lexeme c cs = (.name, (c :: cs).takeWhile inName, (c :: cs).dropWhile inName) := by
  have hname : inName c := by simp [inName, startsName_iff.mpr hc]
  simp [lexeme, punctuation?_of_inName hname, startsName_iff.mpr hc, hname]

theorem lexeme_of_number {c : Char} (hc : c.isDigit ∨ c = '.') (cs : List Char) :
    lexeme c cs = (numberKind (takeNumber (c :: cs)).1, (takeNumber (c :: cs)).1,
      (takeNumber (c :: cs)).2) := by
  have hpunctuation : punctuation? c = none := by
    rcases hc with hc | rfl
    · exact punctuation?_of_inName (by simp [inName, hc])
    · rfl
  have hname : startsName c = false := by
    rcases hc with hc | rfl
    · exact startsName_of_isDigit hc
    · rfl
  have hnumber : (c.isDigit || c = '.') = true := by simpa using hc
  simp [lexeme, hpunctuation, hname, hnumber]

theorem lexeme_of_stray {c : Char} (h : ¬ InAlphabet c) (cs : List Char) :
    lexeme c cs = (.invalid, [c], cs) := by
  obtain ⟨hname, h⟩ := not_or.mp h
  obtain ⟨hnumber, hsymbol⟩ := not_or.mp h
  have hnone : punctuation? c = none := Option.eq_none_iff_forall_ne_some.mpr fun kind hkind =>
    hsymbol ⟨kind, punctuation?_eq_some_iff.mp hkind⟩
  have hnumber : ¬ (c.isDigit || c = '.') = true := by simpa using hnumber
  simp only [lexeme, hnone, mt startsName_iff.mp hname, hnumber]
  rfl

theorem IsNumber.numberKind_cases {literal : List Char} (h : IsNumber literal) :
    (literal = ['.'] ∧ numberKind literal = .invalid) ∨
      ∃ value, literal ≠ ['.'] ∧ Number.read literal = .ok value ∧
        numberKind literal = .number value := by
  by_cases hdigit : ∃ d ∈ literal, d.isDigit
  · obtain ⟨value, hvalue⟩ := h.exists_read hdigit
    refine .inr ⟨value, ?_, hvalue, by rw [numberKind, hvalue]⟩
    rintro rfl
    simp at hdigit
  · obtain rfl := h.eq_point fun d hd hdd => hdigit ⟨d, hd, hdd⟩
    exact .inl ⟨rfl, rfl⟩

theorem lexes_lexeme (c : Char) (cs : List Char) :
    Lexes (c :: cs) (lexeme c cs).1 (lexeme c cs).2.1 := by
  by_cases h : InAlphabet c
  · rcases h with hc | hc | ⟨kind, hkind⟩
    · rw [lexeme_of_name hc]
      exact .name hc (longest_takeWhile_inName _)
    · rw [lexeme_of_number hc]
      have hlongest := longest_takeNumber hc cs
      rcases hlongest.member.numberKind_cases with ⟨hpoint, hkind⟩ | ⟨value, hne, hread, hkind⟩
      · rw [hkind, hpoint]
        exact .point hc (hpoint ▸ hlongest)
      · rw [hkind]
        exact .number hc hlongest hne hread
    · rw [lexeme_of_symbol hkind]
      exact .symbol hkind
  · rw [lexeme_of_stray h]
    exact .stray h

/-- The grammar allows no token but the lexeme. -/
theorem Lexes.lexeme_eq {c : Char} {cs literal : List Char} {kind : Kind}
    (h : Lexes (c :: cs) kind literal) :
    (lexeme c cs).1 = kind ∧ (lexeme c cs).2.1 = literal := by
  cases h with
  | symbol hkind =>
    rw [lexeme_of_symbol hkind]
    exact ⟨rfl, rfl⟩
  | name hc hlongest =>
    rw [lexeme_of_name hc]
    exact ⟨rfl, (longest_takeWhile_inName _).unique hlongest⟩
  | number hc hlongest _ hread =>
    rw [lexeme_of_number hc, (longest_takeNumber hc cs).unique hlongest, numberKind, hread]
    exact ⟨rfl, rfl⟩
  | point hc hlongest =>
    rw [lexeme_of_number hc, (longest_takeNumber hc cs).unique hlongest]
    exact ⟨rfl, rfl⟩
  | stray h =>
    rw [lexeme_of_stray h]
    exact ⟨rfl, rfl⟩

theorem cuts_scanAll (offset : Nat) (cs : List Char) : Cuts offset cs (scanAll offset cs) := by
  fun_induction scanAll offset cs with
  | case1 offset cs first hend =>
    exact .nil (List.dropWhile_eq_nil_iff.mp (isEnd_scan_iff.mp hend))
  | case2 offset cs first hend ih =>
    obtain ⟨c, rest, hc⟩ := List.exists_cons_of_ne_nil (mt isEnd_scan_iff.mpr hend)
    have hfirst : first = _ := scan_of_trimStart_cons hc offset
    have hcs : cs = cs.takeWhile isBlank ++ c :: rest := by
      rw [← hc, trimStart, List.takeWhile_append_dropWhile]
    simp only [hfirst, stop_mk] at ih ⊢
    have hcuts := Cuts.cons (fun d hd => List.mem_takeWhile_imp (l := cs) hd)
      (not_isBlank_of_trimStart_cons hc) (lexes_lexeme c rest) (lexeme_append c rest).symm ih
    rwa [← hcs] at hcuts

theorem Cuts.eq_scanAll {offset : Nat} {cs : List Char} {tokens : List Token}
    (h : Cuts offset cs tokens) : tokens = scanAll offset cs := by
  induction h with
  | nil hgap => exact (scanAll_of_trimStart_nil (List.dropWhile_eq_nil_iff.mpr hgap) _).symm
  | @cons offset gap c cs kind literal rest tokens hgap hc hlexes happend _ ih =>
    obtain ⟨hkind, hliteral⟩ := hlexes.lexeme_eq
    have hrest : (lexeme c cs).2.2 = rest := by
      have hlexeme := lexeme_append c cs
      rw [hliteral, happend] at hlexeme
      exact List.append_cancel_left hlexeme
    rw [scanAll_blanks_append (List.dropWhile_eq_nil_iff.mpr hgap), scanAll_cons hc, hkind,
      hliteral, hrest, ih]

theorem Longest.eq_head {p : List Char → Prop} {c d : Char} {cs : List Char}
    (h : Longest p (c :: cs) [d]) : d = c := by
  obtain ⟨rest, hrest⟩ := h.front
  exact (List.cons.inj hrest).1

theorem Lexes.invalid_iff {cs literal : List Char} {kind : Kind} (h : Lexes cs kind literal) :
    kind = .invalid ↔ literal = ['.'] ∨ ∃ c, literal = [c] ∧ ¬ InAlphabet c := by
  cases h with
  | @symbol c cs kind hkind =>
    refine iff_of_false (by cases hkind <;> simp) ?_
    rintro (hpoint | ⟨d, hd, hstray⟩)
    · obtain rfl := List.singleton_inj.mp hpoint
      cases hkind
    · obtain rfl := List.singleton_inj.mp hd
      exact hstray (.inr (.inr ⟨kind, hkind⟩))
  | name hc hlongest =>
    refine iff_of_false nofun ?_
    rintro (rfl | ⟨d, rfl, hstray⟩)
    · rcases hlongest.member '.' (List.mem_singleton_self _) with h | h <;> revert h <;> decide
    · obtain rfl := hlongest.eq_head
      exact hstray (.inl hc)
  | number hc hlongest hne _ =>
    refine iff_of_false nofun ?_
    rintro (hpoint | ⟨d, rfl, hstray⟩)
    · exact hne hpoint
    · obtain rfl := hlongest.eq_head
      exact hstray (.inr (.inl hc))
  | point _ _ => exact iff_of_true rfl (.inl rfl)
  | stray hstray => exact iff_of_true rfl (.inr ⟨_, rfl, hstray⟩)

theorem Lexes.eq_of_symbol {c : Char} {cs literal : List Char} {kind : Kind}
    (h : Lexes cs kind literal) (hc : IsSymbol c kind) : literal = [c] := by
  cases h with
  | symbol hkind => cases hc <;> cases hkind <;> rfl
  | name | number | point | stray => cases hc

theorem lexes_of_mem_ofText {text : String} {t : Token} (h : t ∈ ofText text) :
    Lexes t.literal.toList t.kind t.literal.toList := by
  obtain ⟨c, ds, hliteral, -, hl⟩ := lone_of_mem_scanAll h
  have hlexes := lexes_lexeme c ds
  rwa [hl, ← String.toList_ofList (l := c :: ds), ← hliteral] at hlexes

theorem invalid_iff_of_mem_ofText {text : String} {t : Token} (h : t ∈ ofText text) :
    t.kind = .invalid ↔
      t.literal = "." ∨ ∃ c, t.literal = String.ofList [c] ∧ ¬ InAlphabet c := by
  rw [(lexes_of_mem_ofText h).invalid_iff]
  simp only [← String.toList_inj, String.toList_ofList]
  rfl

/-- The tokens of a text are those of the lexical grammar, each the longest of its kind, and there
is no other way to cut the text. The invalid ones are points alone and single characters outside of
the alphabet. A number is neither negative nor what is not a number; a literal with a digit is read
as some double. -/
theorem cuts_iff_eq_ofText (text : String) :
    (∀ tokens, Cuts 0 text.toList tokens ↔ tokens = ofText text) ∧
    (∀ t ∈ ofText text, t.kind = .invalid ↔
      t.literal = "." ∨ ∃ c, t.literal = String.ofList [c] ∧ ¬ InAlphabet c) ∧
    (∀ t ∈ ofText text, ∀ value, t.kind = .number value →
      ¬ value.isNaN ∧ ¬ Number.isNegative value) ∧
    ∀ literal, IsNumber literal → (∃ d ∈ literal, d.isDigit) →
      ∃ value, Number.read literal = .ok value := by
  refine ⟨fun tokens => ⟨Cuts.eq_scanAll, ?_⟩, fun t ht => invalid_iff_of_mem_ofText ht, ?_,
    fun literal h hdigit => h.exists_read hdigit⟩
  · rintro rfl
    exact cuts_scanAll 0 text.toList
  · intro t ht value hvalue
    exact Number.toBits_le_infinityBits.mp ((wellFormed_of_mem_scanAll ht).number value hvalue)

/-- The point keeps the first number from having an exponent, and the second point is alone. -/
theorem cuts_iff_eq_ofText_points :
    ofText "1.e5 .$" = [⟨.number 1, "1.", 0⟩, ⟨.name, "e5", 2⟩, ⟨.invalid, ".", 5⟩,
      ⟨.invalid, "$", 6⟩] ∧
    Cuts 0 "1.e5 .$".toList [⟨.number 1, "1.", 0⟩, ⟨.name, "e5", 2⟩, ⟨.invalid, ".", 5⟩,
      ⟨.invalid, "$", 6⟩] ∧
    (∃ c, "$" = String.ofList [c] ∧ ¬ InAlphabet c) ∧ ¬ (1 : Float).isNaN ∧
    ∃ value, Number.read ['1', '.'] = .ok value := by
  have htokens : ofText "1.e5 .$" = [⟨.number 1, "1.", 0⟩, ⟨.name, "e5", 2⟩,
      ⟨.invalid, ".", 5⟩, ⟨.invalid, "$", 6⟩] := by decide +kernel
  obtain ⟨hcuts, hinvalid, hnumber, hread⟩ := cuts_iff_eq_ofText "1.e5 .$"
  have hmantissa : IsMantissa (['1'] ++ '.' :: []) := .point (by simp) (by simp)
  have hstray := (hinvalid ⟨.invalid, "$", 6⟩ (by simp [htokens])).mp rfl
  have hone := hnumber ⟨.number 1, "1.", 0⟩ (by simp [htokens]) 1 rfl
  exact ⟨htokens, (hcuts _).mpr htokens.symm, hstray.resolve_left (by decide), hone.1,
    hread _ (.mantissa hmantissa) ⟨'1', by simp, rfl⟩⟩

end Formula.Token
