import Formula.Proofs.LongestMatch
import Formula.Proofs.Signs
import Formula.Proofs.Tiling

/-! Written doubles. Whether a double is written with all digits in place or with an exponent, its
text is digits, perhaps with a point among them, perhaps a mark and a whole number, and perhaps a
minus in front of all; and it is read as the double again. -/

namespace Formula.Number

/-- A mark and a whole number, or nothing, with the exponent it denotes. -/
inductive Scale : List Char → Int → Prop
  | none : Scale [] 0
  | up {mark ds} : mark = 'e' ∨ mark = 'E' → ds ≠ [] → (∀ d ∈ ds, d.isDigit) →
      Scale (mark :: ds) (Nat.ofDigitChars 10 ds 0)
  | down {mark ds} : mark = 'e' ∨ mark = 'E' → ds ≠ [] → (∀ d ∈ ds, d.isDigit) →
      Scale (mark :: '-' :: ds) (-(Nat.ofDigitChars 10 ds 0 : Int))

/-- A numeral without a sign, with digits on either side of a point and perhaps with an exponent,
and the number it denotes. -/
inductive Unsigned : List Char → Decimal → Prop
  | mk {m x tail e} : Positional m x → Scale tail e →
      Unsigned (m ++ tail) ⟨x.coefficient, x.exponent + e⟩

/-- The text is such a numeral, perhaps with a minus in front of it, and is read as `x`. -/
structure WrittenAs (text : List Char) (x : Float) : Prop where
  shape : ∃ literal y, (text = literal ∨ text = '-' :: literal) ∧ Unsigned literal y
  read_eq : read text = .ok x

/-! What the numerals denote. -/

theorem Scale.isExponent {tail : List Char} {e : Int} (h : Scale tail e) :
    tail = [] ∨ Token.IsExponent tail := by
  cases h with
  | none => exact .inl rfl
  | @up mark ds hmark hne hds =>
    exact .inr (@Token.IsExponent.mk mark [] ds hmark (.inl rfl) hne hds)
  | @down mark ds hmark hne hds =>
    exact .inr (@Token.IsExponent.mk mark ['-'] ds hmark (.inr (.inr rfl)) hne hds)

theorem Scale.exponent?_eq {tail : List Char} {e : Int} (h : Scale tail e) :
    exponent? tail = some e := by
  cases h with
  | none => rfl
  | @up mark ds hmark hne hds =>
    obtain ⟨d, ds, rfl⟩ := List.exists_cons_of_ne_nil hne
    rw [exponent?, if_pos hmark, Token.signedDigits?_of_isDigit (hds d List.mem_cons_self),
      Token.digits?_eq hne hds]
    rfl
  | down hmark hne hds =>
    rw [exponent?, if_pos hmark, signedDigits?, Token.digits?_eq hne hds]
    rfl

theorem Scale.head_not_digit {tail : List Char} {e : Int} (h : Scale tail e) :
    (∀ c ∈ tail.head?, c.isDigit = false) ∧ ∀ c ∈ tail.head?, c ≠ '.' := by
  rcases h.isExponent with rfl | hx
  · simp
  · obtain ⟨mark, tail, rfl, hmark⟩ := hx.exists_cons
    simpa using not_or.mp hmark

theorem Positional.ofChars?_append {m tail : List Char} {x : Decimal} {e : Int}
    (h : Positional m x) (htail : Scale tail e) :
    Decimal.ofChars? (m ++ tail) = some ⟨x.coefficient, x.exponent + e⟩ := by
  obtain ⟨hdigit, hpoint⟩ := htail.head_not_digit
  have he := htail.exponent?_eq
  cases h with
  | whole hne hds => rw [Token.ofChars?_whole hds hdigit hne hpoint, he, Option.map_some, zero_add]
  | point hne hds _ hes =>
    rw [List.append_assoc, List.cons_append,
      Token.ofChars?_point hds hdigit hes fun hnil => hne hnil.1, he, Option.map_some,
      sub_eq_neg_add]

theorem Positional.isNumber_append {m tail : List Char} {x : Decimal} {e : Int}
    (h : Positional m x) (htail : Scale tail e) : Token.IsNumber (m ++ tail) := by
  obtain ⟨init, d, rfl, hd, hm⟩ : ∃ init d, m = init ++ [d] ∧ d.isDigit ∧ Token.IsMantissa m := by
    cases h with
    | whole hne hds =>
      exact ⟨_, _, (List.dropLast_concat_getLast hne).symm, hds _ (List.getLast_mem hne),
        .whole hne hds⟩
    | @point ds es hne hds hne' hes =>
      refine ⟨ds ++ '.' :: es.dropLast, es.getLast hne', ?_, hes _ (List.getLast_mem hne'),
        .point hds hes⟩
      rw [List.append_assoc, List.cons_append, List.dropLast_concat_getLast hne']
  rcases htail.isExponent with rfl | hx
  · rw [List.append_nil]
    exact .mantissa hm
  · exact .scaled hm hd hx

namespace Unsigned

variable {literal : List Char} {y : Decimal}

theorem of_positional (h : Positional literal y) : Unsigned literal y := by
  have hmk := Unsigned.mk h .none
  rwa [List.append_nil, Int.add_zero] at hmk

theorem isNumber (h : Unsigned literal y) : Token.IsNumber literal := by
  obtain ⟨hm, htail⟩ := h
  exact hm.isNumber_append htail

theorem exists_cons (h : Unsigned literal y) : ∃ d rest, literal = d :: rest ∧ d.isDigit := by
  obtain ⟨hm, -⟩ := h
  obtain ⟨d, rest, rfl, hd⟩ := hm.exists_cons
  exact ⟨d, _, rfl, hd⟩

theorem not_isBlank (h : Unsigned literal y) {c : Char} (hc : c ∈ literal) :
    Text.isBlank c = false := by
  obtain ⟨d, rest, rfl, hd⟩ := h.exists_cons
  have hwhole := h.isNumber.takeNumber_eq (.inl hd)
  exact Token.not_isBlank_of_mem_takeNumber (by rwa [hwhole])

theorem ofChars?_eq (h : Unsigned literal y) : Decimal.ofChars? literal = some y := by
  obtain ⟨hm, htail⟩ := h
  exact hm.ofChars?_append htail

theorem unsigned?_eq (h : Unsigned literal y) : unsigned? literal = some y.toFloat := by
  obtain ⟨d, rest, rfl, hd⟩ := h.exists_cons
  rw [unsigned?_of_digit_or_point (by simp [hd]), h.ofChars?_eq]
  rfl

theorem read_eq (h : Unsigned literal y) : read literal = .ok y.toFloat := by
  obtain ⟨d, rest, rfl, hd⟩ := h.exists_cons
  rw [read_of_digit_or_point (by simp [hd]), h.ofChars?_eq]

theorem read_minus (h : Unsigned literal y) : read ('-' :: literal) = .ok (-y.toFloat) := by
  rw [read, if_neg (by simp), signed?, h.unsigned?_eq]
  rfl

end Unsigned

theorem toNat_toBits_toFloat (y : Decimal) : y.toFloat.toBits.toNat = y.bits :=
  toNat_toBits_ofBits y.bits_le_infinityBits

/-- The minus of a written number is its sign; the numeral behind it denotes the absolute value. -/
theorem WrittenAs.cases {text : List Char} {x : Float} (h : WrittenAs text x) :
    (∃ y, isNegative x = false ∧ Unsigned text y ∧ y.toFloat = x) ∨
      ∃ literal y, isNegative x ∧ text = '-' :: literal ∧ Unsigned literal y ∧ y.toFloat = -x := by
  obtain ⟨⟨literal, y, htext, hy⟩, hread⟩ := h
  obtain ⟨hnan, hneg⟩ : ¬ y.toFloat.isNaN ∧ ¬ isNegative y.toFloat := by
    rw [← toBits_le_infinityBits, toNat_toBits_toFloat]
    exact y.bits_le_infinityBits
  rcases htext with rfl | rfl
  · rw [hy.read_eq] at hread
    obtain rfl := Except.ok.inj hread
    exact .inl ⟨y, by simpa using hneg, hy, rfl⟩
  · rw [hy.read_minus] at hread
    obtain rfl := Except.ok.inj hread
    refine .inr ⟨literal, y, ?_, rfl, hy, (neg_neg_of_not_isNaN hnan).symm⟩
    simpa [isNegative_neg hnan] using hneg

/-! How doubles are written. -/

namespace Decimal

theorem scale_writeExponent {mark : Char} (hmark : mark = 'e' ∨ mark = 'E') (e : Int) :
    Scale (mark :: writeExponent e) e := by
  have hvalue := Nat.ofDigitChars_ten_toDigits (n := e.natAbs)
  unfold writeExponent
  split
  · have h := Scale.down hmark Nat.toDigits_ne_nil (isDigit_of_mem_toDigits e.natAbs)
    rwa [hvalue, show -(e.natAbs : Int) = e by omega] at h
  · have h := Scale.up hmark Nat.toDigits_ne_nil (isDigit_of_mem_toDigits e.natAbs)
    rwa [hvalue, show (e.natAbs : Int) = e by omega] at h

theorem unsigned_scientific {mark : Char} (hmark : mark = 'e' ∨ mark = 'E') (x : Decimal) :
    Unsigned (x.scientific mark) x := by
  have hvalue := Nat.ofDigitChars_ten_toDigits (n := x.coefficient)
  have hd := isDigit_of_mem_toDigits x.coefficient
  obtain ⟨d, tail, hdigits⟩ :=
    List.exists_cons_of_ne_nil (Nat.toDigits_ne_nil (b := 10) (n := x.coefficient))
  rw [hdigits] at hvalue hd
  have htail : ∀ c ∈ tail, c.isDigit := fun c hc => hd c (List.mem_cons_of_mem d hc)
  have hhead : ∀ c ∈ [d], c.isDigit := List.forall_mem_singleton.mpr (hd d List.mem_cons_self)
  have hscale := scale_writeExponent hmark (x.exponent + tail.length)
  simp only [scientific, hdigits, List.drop_one, List.tail_cons, List.take_succ_cons,
    List.take_zero]
  split
  · rename_i hnil
    subst hnil
    have h := Unsigned.mk (.whole (List.cons_ne_nil d []) hhead) hscale
    rw [hvalue] at h
    simpa using h
  · rename_i hne
    have h := Unsigned.mk (.point (List.cons_ne_nil d []) hhead hne htail) hscale
    rw [List.singleton_append (l := tail), hvalue] at h
    simpa using h

end Decimal

theorem ofBits_magnitude {x : Float} (hnan : ¬ x.isNaN) (hneg : isNegative x = false) :
    Float.ofBits (UInt64.ofNat (magnitude x)) = x := by
  have hle : x.toBits.toNat ≤ infinityBits := toBits_le_infinityBits.mpr ⟨hnan, by simp [hneg]⟩
  rw [magnitude_eq hle, ofBits_toNat]

/-- However the shortest decimal of a double is written, the sign is written in front of it. -/
theorem writtenAs_write {body : Decimal → List Char} {x : Float} (hx : x.isFinite)
    (hbody : ∀ d : Decimal, d.bits < infinityBits → ∃ y, Unsigned (body d) y ∧ y.bits = d.bits) :
    WrittenAs (write body x).toList x := by
  have hnan := not_isNaN_of_isFinite hx
  have hlt := (isFinite_iff x).mp hx
  have hshortest := Decimal.bits_shortest hlt
  obtain ⟨y, hy, hbits⟩ := hbody _ (hshortest.trans_lt hlt)
  rw [hshortest] at hbits
  simp only [write, if_neg hnan, if_pos hlt, String.toList_ofList]
  by_cases hneg : isNegative x
  · have hvalue : y.toFloat = -x := by
      rw [Decimal.toFloat, hbits, ← magnitude_neg hnan]
      exact ofBits_magnitude (isNaN_neg hnan) (by rw [isNegative_neg hnan, hneg]; rfl)
    rw [if_pos hneg]
    refine ⟨⟨_, y, .inr rfl, hy⟩, ?_⟩
    rw [hy.read_minus, hvalue, neg_neg_of_not_isNaN hnan]
  · rw [if_neg hneg]
    refine ⟨⟨_, y, .inl rfl, hy⟩, ?_⟩
    rw [hy.read_eq, Decimal.toFloat, hbits, ofBits_magnitude hnan (by simpa using hneg)]

theorem writtenAs_plain {x : Float} (hx : x.isFinite) : WrittenAs (plain x).toList x := by
  apply writtenAs_write hx
  intro d hd
  obtain ⟨y, hy, hbits⟩ := Decimal.exists_positional hd
  exact ⟨y, .of_positional hy, hbits⟩

theorem writtenAs_scientific {mark : Char} (hmark : mark = 'e' ∨ mark = 'E') {x : Float}
    (hx : x.isFinite) : WrittenAs (scientific mark x).toList x :=
  writtenAs_write hx fun d _ => ⟨d, Decimal.unsigned_scientific hmark d, rfl⟩

theorem WrittenAs.not_isBlank {text : List Char} {x : Float} (h : WrittenAs text x) :
    ∀ c ∈ text, Text.isBlank c = false := by
  obtain ⟨⟨literal, y, rfl | rfl, hy⟩, -⟩ := h
  · exact fun c hc => hy.not_isBlank hc
  · exact List.forall_mem_cons.mpr ⟨by decide, fun c hc => hy.not_isBlank hc⟩

theorem isFinite_or (x : Float) : x.isFinite ∨ x = nan ∨ x = infinity ∨ x = -infinity := by
  by_cases hnan : x.isNaN
  · exact .inr (.inl (eq_nan_of_isNaN hnan))
  by_cases hx : x.isFinite
  · exact .inl hx
  -- With the magnitude of infinity the sign alone is open.
  have hmagnitude : magnitude x = infinityBits := by
    rw [isNaN_iff] at hnan
    rw [isFinite_iff] at hx
    exact Nat.le_antisymm (Nat.not_lt.mp hnan) (Nat.not_lt.mp hx)
  by_cases hneg : isNegative x
  · have h := ofBits_magnitude (isNaN_neg hnan) (by rw [isNegative_neg hnan, hneg]; rfl)
    rw [magnitude_neg hnan, hmagnitude] at h
    refine .inr (.inr (.inr ?_))
    rw [← neg_neg_of_not_isNaN hnan, ← h]
    rfl
  · refine .inr (.inr (.inl ?_))
    rw [← ofBits_magnitude hnan (by simpa using hneg), hmagnitude]
    rfl

/-- What is written in place is read as the same double, whether it is finite or not. -/
theorem read_plain (x : Float) : read (plain x).toList = .ok x := by
  rcases isFinite_or x with hx | rfl | rfl | rfl
  · exact (writtenAs_plain hx).read_eq
  · rfl
  · rfl
  · decide +kernel

theorem not_isBlank_plain (x : Float) : ∀ c ∈ (plain x).toList, Text.isBlank c = false := by
  rcases isFinite_or x with hx | rfl | rfl | rfl
  · exact (writtenAs_plain hx).not_isBlank
  · have hword : (plain nan).toList = ['N', 'a', 'N'] := by decide +kernel
    simp [hword, Text.isBlank, Text.blankRanges]
  · have hword : (plain infinity).toList = ['i', 'n', 'f'] := by decide +kernel
    simp [hword, Text.isBlank, Text.blankRanges]
  · have hword : (plain (-infinity)).toList = ['-', 'i', 'n', 'f'] := by decide +kernel
    simp [hword, Text.isBlank, Text.blankRanges]

/-- The text stands on one line, and the value is read back from it. -/
structure ReadsBack (text : String) (value : Float) : Prop where
  read : read text.toList = .ok value
  unbroken : '\n' ∉ text.toList

theorem readsBack_plain (value : Float) : ReadsBack (plain value) value where
  read := read_plain value
  unbroken hmem := absurd (not_isBlank_plain value '\n' hmem) (by decide)

end Formula.Number
