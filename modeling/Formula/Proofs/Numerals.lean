import Formula.Proofs.Doubles
import Formula.Proofs.Nearest
import Formula.Number.Written
import Formula.Token.Scan
import Mathlib

/-! The numerals that print a double. They are digits, perhaps with a point and more digits behind
it; such a text is cut off as one token, and the number it denotes is the double again. -/

namespace Formula.Number

theorem toLower_eq_self {c : Char} (h : c.toNat < 'A'.toNat) : c.toLower = c := by
  rw [Char.toLower, dif_neg]
  rintro ⟨hA, -⟩
  exact Nat.not_le.mpr h hA

theorem toNat_lt_of_digit_or_point {c : Char} (hc : (c.isDigit || c = '.') = true) :
    c.toNat < 'A'.toNat := by
  rcases Bool.or_eq_true_iff.mp hc with h | h
  · exact Nat.lt_of_le_of_lt (Char.isDigit_iff_toNat.mp h).2 (by decide)
  · rw [of_decide_eq_true h]
    decide

theorem signed?_of_digit_or_point {c : Char} {cs : List Char}
    (hc : (c.isDigit || c = '.') = true) : signed? (c :: cs) = unsigned? (c :: cs) := by
  unfold signed?
  split
  · rename_i h
    cases h
    simp at hc
  · rename_i h
    cases h
    simp at hc
  · rfl

theorem unsigned?_of_digit_or_point {c : Char} {cs : List Char}
    (hc : (c.isDigit || c = '.') = true) :
    unsigned? (c :: cs) = (Decimal.ofChars? (c :: cs)).map Decimal.toFloat := by
  have hlower : (c :: cs).map Char.toLower = c :: cs.map Char.toLower := by
    rw [List.map_cons, toLower_eq_self (toNat_lt_of_digit_or_point hc)]
  have hi : c ≠ 'i' := by
    rintro rfl
    simp at hc
  have hn : c ≠ 'n' := by
    rintro rfl
    simp at hc
  simp [unsigned?, hlower, hi, hn]

theorem read_of_digit_or_point {c : Char} {cs : List Char} (hc : (c.isDigit || c = '.') = true) :
    read (c :: cs) = match Decimal.ofChars? (c :: cs) with
      | some x => .ok x.toFloat
      | none => .error .malformed := by
  rw [read, if_neg (by simp), signed?_of_digit_or_point hc, unsigned?_of_digit_or_point hc]
  cases Decimal.ofChars? (c :: cs) <;> rfl

/-- A numeral without an exponent, with at least one digit on either side of a point, and the
number it denotes. -/
inductive Positional : List Char → Decimal → Prop
  | whole {ds} : ds ≠ [] → (∀ d ∈ ds, d.isDigit) →
      Positional ds ⟨Nat.ofDigitChars 10 ds 0, 0⟩
  | point {ds es} : ds ≠ [] → (∀ d ∈ ds, d.isDigit) → es ≠ [] → (∀ d ∈ es, d.isDigit) →
      Positional (ds ++ '.' :: es) ⟨Nat.ofDigitChars 10 (ds ++ es) 0, -es.length⟩

theorem Positional.exists_cons {cs : List Char} {x : Decimal} (h : Positional cs x) :
    ∃ d rest, cs = d :: rest ∧ d.isDigit := by
  cases h with
  | whole hne hd =>
    obtain ⟨d, ds, rfl⟩ := List.exists_cons_of_ne_nil hne
    exact ⟨d, ds, rfl, hd d (by simp)⟩
  | point hne hd _ _ =>
    obtain ⟨d, ds, rfl⟩ := List.exists_cons_of_ne_nil hne
    exact ⟨d, _, rfl, hd d (by simp)⟩

theorem Positional.ofChars?_eq {cs : List Char} {x : Decimal} (h : Positional cs x) :
    Decimal.ofChars? cs = some x := by
  cases h with
  | whole hne hd =>
    simp [Decimal.ofChars?, List.takeWhile_eq_self_iff.mpr hd, List.dropWhile_eq_nil_iff.mpr hd,
      fraction, hne, exponent?]
  | point hne hd hne' hd' =>
    simp [Decimal.ofChars?, List.takeWhile_append_of_pos hd, List.dropWhile_append_of_pos hd,
      List.takeWhile_eq_self_iff.mpr hd', List.dropWhile_eq_nil_iff.mpr hd', fraction, hne,
      exponent?]

theorem Positional.read_eq {cs : List Char} {x : Decimal} (h : Positional cs x) :
    read cs = .ok x.toFloat := by
  obtain ⟨d, rest, rfl, hd⟩ := h.exists_cons
  rw [read_of_digit_or_point (by simp [hd]), h.ofChars?_eq]

theorem Positional.takeNumber_eq {cs : List Char} {x : Decimal} (h : Positional cs x) :
    Token.takeNumber cs = (cs, []) := by
  have hm : Token.takeMantissa cs = (cs, []) := by
    cases h with
    | whole hne hd =>
      simp [Token.takeMantissa, List.takeWhile_eq_self_iff.mpr hd,
        List.dropWhile_eq_nil_iff.mpr hd]
    | point hne hd hne' hd' =>
      simp [Token.takeMantissa, List.takeWhile_append_of_pos hd, List.dropWhile_append_of_pos hd,
        List.takeWhile_eq_self_iff.mpr hd', List.dropWhile_eq_nil_iff.mpr hd']
  simp [Token.takeNumber, hm, Token.takeExponent]

namespace Decimal

theorem exponent_le_of_bits_lt {x : Decimal} (h : x.bits < infinityBits) :
    x.coefficient = 0 ∨ x.exponent ≤ 400 := by
  by_contra hx
  obtain ⟨hc, he⟩ := not_or.mp hx
  unfold bits at h
  rw [if_neg hc, if_pos (Int.not_le.mp he)] at h
  exact Nat.lt_irrefl _ h

theorem bits_mul_pow {c e : Nat} (h : c = 0 ∨ (e : Int) ≤ 400) :
    (⟨c * 10 ^ e, 0⟩ : Decimal).bits = (⟨c, e⟩ : Decimal).bits := by
  rcases Nat.eq_zero_or_pos c with rfl | hc
  · simp [bits]
  · have he : (e : Int) ≤ 400 := h.resolve_left hc.ne'
    have hpos : 0 < c * 10 ^ e := Nat.mul_pos hc (Nat.pow_pos (by decide))
    rw [bits_eq_nearestBits hpos.ne' (by simp) (by simp only; omega),
      bits_eq_nearestBits hc.ne' he (by simp only; omega)]
    simp [numerator, denominator]

theorem isDigit_of_mem_toDigits (c : Nat) : ∀ d ∈ Nat.toDigits 10 c, d.isDigit := fun _ =>
  Nat.isDigit_of_mem_toDigits (by decide) (by decide)

theorem isDigit_of_mem_zeros (k : Nat) : ∀ d ∈ List.replicate k '0', d.isDigit := by
  intro d hd
  rw [List.eq_of_mem_replicate hd]
  rfl

/-! Where the point comes to stand: behind all digits, among them, or in front of them. -/

theorem positional_whole {c k : Nat} (h : c = 0 ∨ (k : Int) ≤ 400) :
    ∃ y, Positional (Nat.toDigits 10 c ++ List.replicate k '0') y ∧
      y.bits = (⟨c, k⟩ : Decimal).bits := by
  refine ⟨_, .whole (by simp) ?_, ?_⟩
  · exact List.forall_mem_append.mpr ⟨isDigit_of_mem_toDigits c, isDigit_of_mem_zeros k⟩
  · rw [Nat.ofDigitChars_append, Nat.ofDigitChars_ten_toDigits, Nat.ofDigitChars_replicate_zero,
      Nat.mul_comm]
    exact bits_mul_pow h

theorem positional_among {c k : Nat} (hpos : 0 < k) (hlt : k < (Nat.toDigits 10 c).length) :
    Positional ((Nat.toDigits 10 c).take ((Nat.toDigits 10 c).length - k) ++
      '.' :: (Nat.toDigits 10 c).drop ((Nat.toDigits 10 c).length - k)) ⟨c, -k⟩ := by
  have hvalue := Nat.ofDigitChars_ten_toDigits (n := c)
  have hd := isDigit_of_mem_toDigits c
  generalize Nat.toDigits 10 c = digits at *
  have htake : digits.take (digits.length - k) ≠ [] := by
    apply List.ne_nil_of_length_pos
    rw [List.length_take]
    omega
  have hdrop : digits.drop (digits.length - k) ≠ [] := by
    apply List.ne_nil_of_length_pos
    rw [List.length_drop]
    omega
  have h := Positional.point htake (fun d hm => hd d (List.mem_of_mem_take hm)) hdrop
    (fun d hm => hd d (List.mem_of_mem_drop hm))
  rwa [List.take_append_drop, hvalue, List.length_drop,
    Nat.sub_sub_self (Nat.le_of_lt hlt)] at h

theorem positional_front {c k : Nat} (hle : (Nat.toDigits 10 c).length ≤ k) :
    Positional ('0' :: '.' ::
      (List.replicate (k - (Nat.toDigits 10 c).length) '0' ++ Nat.toDigits 10 c)) ⟨c, -k⟩ := by
  have hvalue := Nat.ofDigitChars_ten_toDigits (n := c)
  have hd := isDigit_of_mem_toDigits c
  have hne : Nat.toDigits 10 c ≠ [] := Nat.toDigits_ne_nil
  generalize Nat.toDigits 10 c = digits at *
  have hlen : (List.replicate (k - digits.length) '0' ++ digits).length = k := by
    rw [List.length_append, List.length_replicate]
    omega
  have h := Positional.point (List.cons_ne_nil '0' []) (isDigit_of_mem_zeros 1)
    (List.append_ne_nil_of_right_ne_nil _ hne)
    (List.forall_mem_append.mpr ⟨isDigit_of_mem_zeros (k - digits.length), hd⟩)
  rwa [Nat.ofDigitChars_append, Nat.ofDigitChars_append, Nat.ofDigitChars_replicate_zero,
    show Nat.ofDigitChars 10 ['0'] 0 = 0 from rfl, Nat.mul_zero, hvalue, hlen] at h

/-- What is written in place is a numeral for a number with the same double. -/
theorem exists_positional {x : Decimal} (h : x.bits < infinityBits) :
    ∃ y, Positional x.positional y ∧ y.bits = x.bits := by
  have hexp := exponent_le_of_bits_lt h
  obtain ⟨c, e⟩ := x
  unfold positional
  simp only at hexp ⊢
  split
  · rename_i he
    obtain ⟨k, rfl⟩ := Int.eq_ofNat_of_zero_le he
    exact positional_whole hexp
  · rename_i he
    obtain ⟨k, rfl⟩ : ∃ k : Nat, e = -k := ⟨(-e).toNat, by omega⟩
    rw [neg_neg, Int.toNat_natCast]
    split
    · rename_i hlt
      exact ⟨_, positional_among (by omega) hlt, rfl⟩
    · rename_i hle
      exact ⟨_, positional_front (Nat.not_lt.mp hle), rfl⟩

end Decimal

theorem magnitude_eq {x : Float} (h : x.toBits.toNat ≤ infinityBits) :
    magnitude x = x.toBits.toNat :=
  Nat.mod_eq_of_lt (Nat.lt_of_le_of_lt h (by decide))

theorem exists_positional_plain {v : Float} (h : v.toBits.toNat < infinityBits) :
    ∃ y, Positional (plain v).toList y ∧ y.toFloat = v := by
  have hle := Nat.le_of_lt h
  have hnum := toBits_le_infinityBits.mp hle
  have hbits := Decimal.bits_shortest h
  obtain ⟨y, hy, hb⟩ := Decimal.exists_positional (hbits.trans_lt h)
  refine ⟨y, ?_, ?_⟩
  · have hplain : plain v = String.ofList (Decimal.shortest v.toBits.toNat).positional := by
      simp only [plain, write, magnitude_eq hle, if_pos h, if_neg hnum.1, if_neg hnum.2]
    rwa [hplain, String.toList_ofList]
  · rw [Decimal.toFloat, hb, hbits, ofBits_toNat]

/-- What reads as a number is neither negative nor what is not a number, if the text starts with a
digit or a point. -/
theorem toBits_le_of_read {c : Char} {cs : List Char} {v : Float}
    (hc : (c.isDigit || c = '.') = true) (h : read (c :: cs) = .ok v) :
    v.toBits.toNat ≤ infinityBits := by
  rw [read_of_digit_or_point hc] at h
  split at h
  · rename_i x _
    cases h
    rw [Decimal.toFloat, toNat_toBits_ofBits x.bits_le_infinityBits]
    exact x.bits_le_infinityBits
  · cases h

end Formula.Number
