import Formula.Proofs.LongestMatch

/-! The texts that are read as doubles: one of three words or a number with a digit, with at most
one sign in front of it. Everything else is refused. -/

namespace Formula.Number

open Token (IsMantissa IsExponent)

def words : List (List Char) :=
  ["inf".toList, "infinity".toList, "nan".toList]

/-- A text that is read without a sign. -/
inductive IsMagnitude : List Char → Prop
  | word {cs} : cs.map Char.toLower ∈ words → IsMagnitude cs
  | number {m x} : IsMantissa m → (∃ d ∈ m, d.isDigit) → x = [] ∨ IsExponent x →
      IsMagnitude (m ++ x)

inductive IsNumeral : List Char → Prop
  | mk {sign cs} : sign = [] ∨ sign = ['+'] ∨ sign = ['-'] → IsMagnitude cs →
      IsNumeral (sign ++ cs)

theorem digits?_eq_some {cs : List Char} {n : Nat} (h : digits? cs = some n) :
    cs ≠ [] ∧ ∀ d ∈ cs, d.isDigit := by
  rw [digits?] at h
  split at h
  · rename_i hdigits
    exact ⟨hdigits.1, List.all_eq_true.mp hdigits.2⟩
  · cases h

theorem signedDigits?_eq_some {cs : List Char} {e : Int} (h : signedDigits? cs = some e) :
    ∃ sign ds, cs = sign ++ ds ∧ (sign = [] ∨ sign = ['+'] ∨ sign = ['-']) ∧ ds ≠ [] ∧
      ∀ d ∈ ds, d.isDigit := by
  have hdigits {ds : List Char} (h : digits? ds ≠ none) : ds ≠ [] ∧ ∀ d ∈ ds, d.isDigit := by
    obtain ⟨n, hn⟩ := Option.ne_none_iff_exists'.mp h
    exact digits?_eq_some hn
  unfold signedDigits? at h
  split at h
  · exact ⟨['+'], _, rfl, .inr (.inl rfl), hdigits fun hnone => by simp [hnone] at h⟩
  · exact ⟨['-'], _, rfl, .inr (.inr rfl), hdigits fun hnone => by simp [hnone] at h⟩
  · exact ⟨[], _, rfl, .inl rfl, hdigits fun hnone => by simp [hnone] at h⟩

theorem exponent?_eq_some {cs : List Char} {e : Int} (h : exponent? cs = some e) :
    cs = [] ∨ IsExponent cs := by
  cases cs with
  | nil => exact .inl rfl
  | cons mark cs =>
    rw [exponent?] at h
    split at h
    · rename_i hmark
      obtain ⟨sign, ds, rfl, hsign, hne, hds⟩ := signedDigits?_eq_some h
      exact .inr (.mk hmark hsign hne hds)
    · cases h

/-- What is read as a decimal is a mantissa with a digit, and an exponent if there is more. -/
theorem Decimal.ofChars?_eq_some {cs : List Char} {y : Decimal} (h : ofChars? cs = some y) :
    ∃ m x, cs = m ++ x ∧ IsMantissa m ∧ (∃ d ∈ m, d.isDigit) ∧ (x = [] ∨ IsExponent x) := by
  have hcs := List.takeWhile_append_dropWhile (p := Char.isDigit) (l := cs)
  have hwhole : ∀ d ∈ cs.takeWhile Char.isDigit, d.isDigit := fun d hd => List.mem_takeWhile_imp hd
  rw [ofChars?] at h
  simp only at h
  split at h
  · cases h
  rename_i hsome
  obtain ⟨e, he, -⟩ := Option.map_eq_some_iff.mp h
  have hexponent := exponent?_eq_some he
  generalize cs.takeWhile Char.isDigit = whole at hcs hwhole hsome
  generalize cs.dropWhile Char.isDigit = behind at hcs hsome hexponent
  unfold fraction at hsome hexponent
  split at hsome
  · rename_i tail
    have htail := List.takeWhile_append_dropWhile (p := Char.isDigit) (l := tail)
    have hdecimals : ∀ d ∈ tail.takeWhile Char.isDigit, d.isDigit :=
      fun d hd => List.mem_takeWhile_imp hd
    refine ⟨whole ++ '.' :: tail.takeWhile Char.isDigit, tail.dropWhile Char.isDigit, ?_,
      .point hwhole hdecimals, ?_, hexponent⟩
    · rw [List.append_assoc, List.cons_append, htail, hcs]
    · rcases not_and_or.mp hsome with hne | hne
      · obtain ⟨d, hd⟩ := List.exists_mem_of_ne_nil _ hne
        exact ⟨d, List.mem_append_left _ hd, hwhole d hd⟩
      · obtain ⟨d, hd⟩ := List.exists_mem_of_ne_nil _ hne
        exact ⟨d, by simp [hd], hdecimals d hd⟩
  · rename_i hpoint
    have hne : whole ≠ [] := fun hnil => hsome ⟨hnil, rfl⟩
    obtain ⟨d, hd⟩ := List.exists_mem_of_ne_nil _ hne
    refine ⟨whole, behind, hcs.symm, .whole hne hwhole, ⟨d, hd, hwhole d hd⟩, ?_⟩
    split at hexponent
    · exact absurd rfl (hpoint _)
    · exact hexponent

theorem IsMagnitude.exists_cons {cs : List Char} (h : IsMagnitude cs) :
    ∃ c rest, cs = c :: rest ∧ c ≠ '+' ∧ c ≠ '-' := by
  cases h with
  | word hword =>
    cases cs with
    | nil => simp [words] at hword
    | cons c rest =>
      refine ⟨c, rest, rfl, ?_, ?_⟩
      all_goals
        rintro rfl
        simp [words] at hword
  | number hm =>
    obtain ⟨c, rest, rfl, hc⟩ := hm.exists_cons
    refine ⟨c, _, rfl, ?_, ?_⟩
    all_goals
      rintro rfl
      exact absurd hc (by decide)

theorem exists_unsigned?_iff (cs : List Char) :
    (∃ value, unsigned? cs = some value) ↔ IsMagnitude cs := by
  constructor
  · rintro ⟨value, h⟩
    rw [unsigned?] at h
    split at h
    · rename_i hword
      exact .word (by rcases hword with hword | hword <;> simp [words, hword])
    split at h
    · rename_i hword
      exact .word (by simp [words, hword])
    obtain ⟨y, hy, -⟩ := Option.map_eq_some_iff.mp h
    obtain ⟨m, x, rfl, hm, hdigit, hx⟩ := Decimal.ofChars?_eq_some hy
    exact .number hm hdigit hx
  · intro h
    cases h with
    | word hword =>
      rcases List.mem_cons.mp hword with hword | hword
      · exact ⟨_, if_pos (.inl hword)⟩
      rcases List.mem_cons.mp hword with hword | hword
      · exact ⟨_, if_pos (.inr hword)⟩
      · obtain hword := List.mem_singleton.mp hword
        rw [unsigned?]
        simp only [hword]
        exact ⟨nan, rfl⟩
    | number hm hdigit hx =>
      obtain ⟨y, hy⟩ := hm.exists_ofChars? hdigit hx
      obtain ⟨c, rest, rfl, hc⟩ := hm.exists_cons
      rw [List.cons_append] at hy ⊢
      rw [unsigned?_of_digit_or_point (by simpa using hc), hy]
      exact ⟨_, rfl⟩

theorem exists_read_iff (cs : List Char) : (∃ value, read cs = .ok value) ↔ IsNumeral cs := by
  have hread : (∃ value, read cs = .ok value) ↔ cs ≠ [] ∧ ∃ value, signed? cs = some value := by
    rw [read]
    split
    · simp [*]
    · cases signed? cs <;> simp [*]
  rw [hread]
  constructor
  · rintro ⟨-, value, h⟩
    unfold signed? at h
    split at h
    · exact @IsNumeral.mk ['+'] _ (.inr (.inl rfl)) ((exists_unsigned?_iff _).mp ⟨_, h⟩)
    · obtain ⟨x, hx, -⟩ := Option.map_eq_some_iff.mp h
      exact @IsNumeral.mk ['-'] _ (.inr (.inr rfl)) ((exists_unsigned?_iff _).mp ⟨_, hx⟩)
    · exact @IsNumeral.mk [] _ (.inl rfl) ((exists_unsigned?_iff _).mp ⟨_, h⟩)
  · rintro ⟨hsign, hcs⟩
    obtain ⟨value, hvalue⟩ := (exists_unsigned?_iff _).mpr hcs
    rcases hsign with rfl | rfl | rfl
    · obtain ⟨c, rest, rfl, hplus, hminus⟩ := hcs.exists_cons
      refine ⟨by simp, value, ?_⟩
      rw [List.nil_append, signed?, hvalue]
      · simpa using hplus
      · simpa using hminus
    · exact ⟨by simp, value, hvalue⟩
    · refine ⟨by simp, -value, ?_⟩
      rw [List.singleton_append, signed?, hvalue]
      rfl

end Formula.Number
