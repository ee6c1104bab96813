import Formula.Proofs.ByteCursor
import Formula.Proofs.Diagnosis
import Formula.Proofs.Lexicon

/-! What a syntax error shows of its text. Its span is a stretch of whole characters, the line is
that of the first of them, and each cause says what stands there. -/

namespace Formula

open Text (Source Span isBlank byteLength splitAt?)

open Token (endOf ofText)

namespace Text

theorem breaksBefore_append (before rest : List Char) :
    breaksBefore (before ++ rest) (byteLength before) = before.count '\n' := by
  induction before with
  | nil => cases rest <;> rfl
  | cons c before ih =>
    have hpos : byteLength (c :: before) ≠ 0 :=
      Nat.ne_of_gt (byteLength_pos (List.cons_ne_nil c before))
    rw [List.cons_append, breaksBefore, if_neg hpos, byteLength, Nat.add_sub_cancel_left, ih,
      List.count_cons, Nat.add_comm]
    simp

/-- The span is that of the stretch `marked`, which stands in the text between the other two. -/
structure Span.Selects (span : Span) (cs before marked after : List Char) : Prop where
  append : cs = before ++ (marked ++ after)
  offset : byteLength before = span.offset
  length : byteLength marked = span.length

namespace Span.Selects

variable {span : Span} {cs before marked after : List Char}

theorem splitAt?_offset (h : span.Selects cs before marked after) :
    splitAt? span.offset cs = some (before, marked ++ after) :=
  splitAt?_eq_some_iff.mpr ⟨h.append, h.offset⟩

theorem splitAt?_stop (h : span.Selects cs before marked after) :
    splitAt? (span.offset + span.length) cs = some (before ++ marked, after) := by
  refine splitAt?_eq_some_iff.mpr ⟨by rw [h.append, List.append_assoc], ?_⟩
  rw [byteLength_append, h.offset, h.length]

theorem stop_le (h : span.Selects cs before marked after) :
    span.offset + span.length ≤ byteLength cs := by
  rw [h.append, byteLength_append, byteLength_append, h.offset, h.length]
  omega

theorem append_right (h : span.Selects cs before marked after) (ds : List Char) :
    span.Selects (cs ++ ds) before marked (after ++ ds) :=
  ⟨by simp [h.append], h.offset, h.length⟩

theorem from_front {front inner : List Char} {offset : Nat}
    (h : span.Selects cs (before ++ (front ++ inner)) marked after)
    (hoffset : offset = byteLength before) :
    (⟨offset, span.offset + span.length - offset⟩ : Span).Selects cs before
      (front ++ (inner ++ marked)) after := by
  refine ⟨by simp [h.append], hoffset.symm, ?_⟩
  have hstart := h.offset
  have hlength := h.length
  simp only [byteLength_append] at hstart ⊢
  omega

end Span.Selects

end Text

namespace SyntaxError

/-- The line by a checked cut of the text, which fails inside a character and past the end. -/
def line? (error : SyntaxError) : Option Nat := do
  let (before, _) ← splitAt? error.span.offset error.source.text.toList
  some (before.count '\n' + 1)

/-- What stands in front of the span of an error and under it, by what is wrong there. -/
inductive Marks : SyntaxError → List Char → List Char → Prop
  | unexpectedToken {source span before token} :
      token.toList ≠ [] → (∀ c ∈ token.toList, isBlank c = false) →
      Marks ⟨source, span, .unexpectedToken token⟩ before token.toList
  | unexpectedEnd {source} :
      Marks ⟨source, ⟨source.size, 0⟩, .unexpectedEnd⟩ source.text.toList []
  | missingClose {source span opening front between before marked} :
      opening.Selects source.text.toList front ['('] between →
      opening.offset + opening.length ≤ span.offset →
      Marks ⟨source, span, .missingClose opening⟩ before marked
  | trailingInput {source span before token} :
      token.toList ≠ [] → (∀ c ∈ token.toList, isBlank c = false) →
      Marks ⟨source, span, .trailingInput token⟩ before token.toList
  | emptyArguments {source span name front gap inner} :
      ⟨.name, name, byteLength front⟩ ∈ ofText source.text →
      (∀ c ∈ gap, isBlank c) → (∀ c ∈ inner, isBlank c) →
      Marks ⟨source, span, .emptyArguments name⟩ (front ++ (name.toList ++ gap))
        ('(' :: (inner ++ [')']))

end SyntaxError

namespace Token

theorem literal_of_symbol {text : String} {t : Token} {c : Char} {kind : Kind}
    (ht : t ∈ ofText text) (hkind : t.kind = kind) (hc : IsSymbol c kind) :
    t.literal.toList = [c] :=
  (lexes_of_mem_ofText ht).eq_of_symbol (hkind ▸ hc)

theorem Tiles.exists_selects {cs : List Char} {tokens : List Token} (h : Tiles 0 cs tokens)
    {t : Token} (ht : t ∈ tokens) :
    ∃ before after, t.span.Selects cs before t.literal.toList after := by
  obtain ⟨before, after, happend, hoffset⟩ := h.exists_append ht
  rw [Nat.zero_add] at hoffset
  exact ⟨before, after, happend, hoffset.symm, rfl⟩

section

variable {source : Source} {taken rest : List Token}

theorem headD_mem (hts : ofText source.text = taken ++ rest) (h : rest ≠ []) :
    rest.headD (endOf source) ∈ ofText source.text := by
  obtain ⟨t, rest, rfl⟩ := List.exists_cons_of_ne_nil h
  rw [hts]
  simp

theorem kind_headD_eq_end_iff (hts : ofText source.text = taken ++ rest) :
    (rest.headD (endOf source)).kind = .endOfInput ↔ rest = [] := by
  constructor
  · intro hend
    by_contra hne
    exact not_isEnd_of_mem_scanAll (headD_mem hts hne) hend
  · rintro rfl
    rfl

theorem exists_place (hts : ofText source.text = taken ++ rest) :
    ∃ before after, Tiles 0 before taken ∧
      (rest.headD (endOf source)).span.Selects source.text.toList before
        (rest.headD (endOf source)).literal.toList after := by
  have htiles := tiles_scanAll 0 source.text.toList
  rw [← ofText, hts] at htiles
  cases rest with
  | nil =>
    rw [List.append_nil] at htiles
    exact ⟨source.text.toList, [], htiles, (List.append_nil _).symm, rfl, rfl⟩
  | cons t rest =>
    obtain ⟨before, after, happend, hoffset, hbefore, -⟩ := htiles.exists_split
    rw [Nat.zero_add] at hoffset
    exact ⟨before, after, hbefore, happend, hoffset.symm, rfl⟩

end

end Token

/-- Between a name, the parenthesis that opens its arguments and the place behind it there are
only blanks. -/
theorem OpensCall.exists_gaps {cs : List Char} {taken : List Token} {n o : Token}
    (h : OpensCall taken n o) (htiles : Token.Tiles 0 cs taken) :
    ∃ front gap inner, cs = (front ++ (n.literal.toList ++ gap)) ++ (o.literal.toList ++ inner) ∧
      (∀ c ∈ gap, isBlank c) ∧ (∀ c ∈ inner, isBlank c) ∧ n.offset = byteLength front ∧
      o.offset = byteLength (front ++ (n.literal.toList ++ gap)) := by
  obtain ⟨⟨before, rfl⟩, -, -⟩ := h
  obtain ⟨front, behind, rfl, hn, -, hbehind⟩ := htiles.exists_split
  rw [← List.nil_append [o]] at hbehind
  obtain ⟨gap, inner, rfl, ho, hgap, hinner⟩ := hbehind.exists_split
  rw [Nat.zero_add] at hn
  refine ⟨front, gap, inner, by simp, hgap.isBlank_of_nil, hinner.isBlank_of_nil, hn, ?_⟩
  rw [ho, Token.stop, Token.span, hn, Text.byteLength_append, Text.byteLength_append,
    Nat.add_assoc]

theorem Track.Stuck.rest_ne_nil {s : Track} {taken rest : List Token} (h : s.Stuck taken rest)
    (he : EndsOperand taken) (hno : ∀ o after, ¬ Unclosed taken o after) : rest ≠ [] := by
  intro hrest
  have hphase := phaseOf_of_steps h.taken
  have hopened := opened_of_steps h.taken
  have hfalse := h.unfinished hrest
  obtain ⟨phase, frames⟩ := s
  cases phase with
  | operand => exact he.not_wantsOperand hphase.1
  | argument n o => exact he.not_wantsOperand (OpensCall.wantsOperand hphase)
  | operator name? =>
    cases frames with
    | nil => simp [accepts] at hfalse
    | cons frame frames =>
      obtain ⟨after, hunclosed, -⟩ := hopened.exists_unclosed
      exact hno _ _ hunclosed

/-- The error that belongs to a place is marked there. -/
theorem Diagnosis.exists_marks {source : Source} {s : Track} {taken rest : List Token}
    {error : SyntaxError} (hts : ofText source.text = taken ++ rest) (hstuck : s.Stuck taken rest)
    (h : Diagnosis source taken (rest.headD (endOf source)) error) :
    error.source = source ∧ ∃ before marked after,
      error.span.Selects source.text.toList before marked after ∧
        error.Marks before marked := by
  obtain ⟨before, after, htiles, hplace⟩ := Token.exists_place hts
  have hall := Token.tiles_scanAll 0 source.text.toList
  have hmem {t : Token} (ht : t ∈ taken) : t ∈ ofText source.text := by
    rw [hts]
    exact List.mem_append_left rest ht
  cases h with
  | unexpectedEnd hw he =>
    obtain rfl := (Token.kind_headD_eq_end_iff hts).mp he
    exact ⟨rfl, source.text.toList, [], [], ⟨(List.append_nil _).symm, rfl, rfl⟩, .unexpectedEnd⟩
  | unexpectedToken hw he hno =>
    have hrest := mt (Token.kind_headD_eq_end_iff hts).mpr he
    obtain ⟨hne, hplain⟩ := hall.not_isBlank (Token.headD_mem hts hrest)
    exact ⟨rfl, before, _, after, hplace, .unexpectedToken hne hplain⟩
  | trailingInput he hno =>
    -- At the end the text would have been accepted, so there is a token to show.
    obtain ⟨hne, hplain⟩ := hall.not_isBlank (Token.headD_mem hts (hstuck.rest_ne_nil he hno))
    exact ⟨rfl, before, _, after, hplace, .trailingInput hne hplain⟩
  | @missingClose o _ he ho hin =>
    obtain ⟨earlier, htaken⟩ := ho.split
    have ho' : o ∈ taken := by simp [htaken]
    obtain ⟨front, between, hopening⟩ := htiles.exists_selects ho'
    have hle := hopening.stop_le
    rw [hplace.offset] at hle
    rw [Token.literal_of_symbol (hmem ho') ho.opens .leftParen] at hopening
    have hopening := hopening.append_right ((rest.headD (endOf source)).literal.toList ++ after)
    rw [← hplace.append] at hopening
    exact ⟨rfl, before, _, after, hplace, .missingClose hopening hle⟩
  | @emptyArguments n o hc he =>
    -- The span reaches from the token taken last to the end of the one that is refused.
    have hrest : rest ≠ [] := mt (Token.kind_headD_eq_end_iff hts).mpr (by rw [he]; simp)
    have hclose := Token.literal_of_symbol (Token.headD_mem hts hrest) he .rightParen
    obtain ⟨front, gap, inner, rfl, hgap, hinner, hn, ho⟩ := hc.exists_gaps htiles
    obtain ⟨⟨earlier, htaken⟩, hname, hopen⟩ := hc
    have hopen := Token.literal_of_symbol (hmem (by simp [htaken])) hopen .leftParen
    have hname : (⟨.name, n.literal, byteLength front⟩ : Token) ∈ ofText source.text := by
      rw [← hname, ← hn]
      exact hmem (by simp [htaken])
    rw [hopen, hclose] at hplace
    exact ⟨rfl, _, _, after, hplace.from_front ho, .emptyArguments hname hgap hinner⟩

/-- Every syntax error keeps its text and points into it: its span starts and ends between two
characters, its line is one more than the line breaks in front of the span, and what the cause
names is what stands there. -/
theorem parseSource_error_marks {source : Source} {error : SyntaxError}
    (h : parseSource source = .error error) :
    error.source = source ∧ error.span.offset + error.span.length ≤ source.size ∧
    ∃ before marked after, source.text.toList = before ++ (marked ++ after) ∧
      splitAt? error.span.offset source.text.toList = some (before, marked ++ after) ∧
      splitAt? (error.span.offset + error.span.length) source.text.toList =
        some (before ++ marked, after) ∧
      error.line? = some error.line ∧ error.line = before.count '\n' + 1 ∧
      error.Marks before marked := by
  obtain ⟨s, taken, rest, hts, hstuck, hd⟩ := exists_stuck h
  obtain ⟨hsource, before, marked, after, hspan, hmarks⟩ := hd.exists_marks hts hstuck
  have hline : error.line = before.count '\n' + 1 := by
    rw [SyntaxError.line, Source.line, hsource, hspan.append, ← hspan.offset,
      Text.breaksBefore_append]
  have hline? : error.line? = some (before.count '\n' + 1) := by
    rw [SyntaxError.line?, hsource, hspan.splitAt?_offset]
    rfl
  exact ⟨hsource, hspan.stop_le, before, marked, after, hspan.append, hspan.splitAt?_offset,
    hspan.splitAt?_stop, hline?.trans (congrArg some hline.symm), hline, hmarks⟩

theorem parseSource_error_marks_wideBlanks :
    let source : Source := ⟨none, "x +\n\u3000f\u00a0(\u2003)"⟩
    let error : SyntaxError := ⟨source, ⟨10, 5⟩, .emptyArguments "f"⟩
    parseSource source = .error error ∧ error.line? = some 2 ∧
      ∃ before marked after, source.text.toList = before ++ (marked ++ after) ∧
        splitAt? 10 source.text.toList = some (before, marked ++ after) ∧
        splitAt? 15 source.text.toList = some (before ++ marked, after) ∧
        error.Marks before marked := by
  intro source error
  have hts : ofText source.text = [⟨.name, "x", 0⟩, ⟨.plus, "+", 2⟩, ⟨.name, "f", 7⟩,
      ⟨.leftParen, "(", 10⟩, ⟨.rightParen, ")", 14⟩] := by decide +kernel
  have hp : Reader.parse (ofText source.text) =
      .error ⟨.argument ⟨.name, "f", 7⟩ ⟨.leftParen, "(", 10⟩, [⟨.rightParen, ")", 14⟩]⟩ := by
    rw [hts]
    exact run_start_eq_error.mp rfl
  have h : parseSource source = .error error := parseSource_eq_error_iff.mpr ⟨_, hp, rfl⟩
  obtain ⟨-, -, before, marked, after, happend, hstart, hstop, hline?, -, hmarks⟩ :=
    parseSource_error_marks h
  have hline : error.line = 2 := by decide +kernel
  exact ⟨h, hline?.trans (congrArg some hline), before, marked, after, happend, hstart, hstop,
    hmarks⟩

end Formula
