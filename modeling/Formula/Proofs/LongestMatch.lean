import Formula.Proofs.Printing
import Formula.Proofs.Relexing

/-! The languages of names and of numbers, and the longest text of each at the front of another. A
number looks ahead for an exponent, but a shorter mantissa would not make it longer: behind a part
of a mantissa there is a digit or a point, where no exponent starts. A number that has a digit is
always read as a double. -/

namespace Formula.Token

/-- The text is in the language and at the front of `cs`, and no longer one is. -/
structure Longest (p : List Char → Prop) (cs taken : List Char) : Prop where
  member : p taken
  front : taken <+: cs
  longest : ∀ other, p other → other <+: cs → other.length ≤ taken.length

def IsWord (word : List Char) : Prop := ∀ c ∈ word, c.isAlphanum ∨ c = '_'

/-- Digits, with at most one point in front of them, among them or behind them. -/
inductive IsMantissa : List Char → Prop
  | whole {ds} : ds ≠ [] → (∀ d ∈ ds, d.isDigit) → IsMantissa ds
  | point {ds es} : (∀ d ∈ ds, d.isDigit) → (∀ d ∈ es, d.isDigit) → IsMantissa (ds ++ '.' :: es)

inductive IsExponent : List Char → Prop
  | mk {mark sign ds} : mark = 'e' ∨ mark = 'E' → sign = [] ∨ sign = ['+'] ∨ sign = ['-'] →
      ds ≠ [] → (∀ d ∈ ds, d.isDigit) → IsExponent (mark :: (sign ++ ds))

/-- A mantissa, and an exponent behind it only if a digit is in front of that. -/
inductive IsNumber : List Char → Prop
  | mantissa {m} : IsMantissa m → IsNumber m
  | scaled {m d x} : IsMantissa (m ++ [d]) → d.isDigit → IsExponent x → IsNumber (m ++ [d] ++ x)

theorem Longest.unique {p : List Char → Prop} {cs taken other : List Char}
    (h : Longest p cs taken) (h' : Longest p cs other) : taken = other := by
  have hle := h'.longest taken h.member h.front
  have hge := h.longest other h'.member h'.front
  exact (List.prefix_of_prefix_length_le h.front h'.front hle).eq_of_length_le hge

/-! The longest word, the longest mantissa and the longest exponent at the front of a text. -/

theorem isPrefix_takeWhile {p : Char → Bool} {word cs : List Char} (hp : ∀ c ∈ word, p c)
    (h : word <+: cs) : word <+: cs.takeWhile p := by
  obtain ⟨rest, rfl⟩ := h
  rw [List.takeWhile_append_of_pos hp]
  exact List.prefix_append _ _

theorem longest_takeWhile_inName (cs : List Char) : Longest IsWord cs (cs.takeWhile inName) where
  member _ hc := inName_iff.mp (List.mem_takeWhile_imp hc)
  front := List.takeWhile_prefix _
  longest _ hword hfront :=
    (isPrefix_takeWhile (fun c hc => inName_iff.mpr (hword c hc)) hfront).length_le

theorem isMantissa_takeMantissa {c : Char} (hc : c.isDigit ∨ c = '.') (cs : List Char) :
    IsMantissa (takeMantissa (c :: cs)).1 := by
  have hdigits (cs : List Char) : ∀ d ∈ cs.takeWhile Char.isDigit, d.isDigit :=
    fun _ hd => List.mem_takeWhile_imp hd
  by_cases hpoint : ∃ tail, (c :: cs).dropWhile Char.isDigit = '.' :: tail
  · obtain ⟨tail, htail⟩ := hpoint
    rw [takeMantissa_of_point htail]
    exact .point (hdigits _) (hdigits _)
  · have hno : ∀ d ∈ ((c :: cs).dropWhile Char.isDigit).head?, d ≠ '.' := by
      rintro d hd rfl
      exact hpoint ((List.head?_eq_some_iff.mp hd))
    rw [takeMantissa_of_no_point hno]
    refine .whole ?_ (hdigits _)
    rcases hc with hc | rfl
    · simp [hc]
    · exact absurd ⟨cs, rfl⟩ hpoint

/-- Every mantissa at the front of a text is a part of the one that is taken. -/
theorem IsMantissa.isPrefix_takeMantissa {m cs : List Char} (h : IsMantissa m) (hcs : m <+: cs) :
    m <+: (takeMantissa cs).1 := by
  cases h with
  | whole _ hds =>
    have hdigits := isPrefix_takeWhile hds hcs
    unfold takeMantissa
    split
    · exact hdigits.trans (List.prefix_append _ _)
    · exact hdigits
  | @point ds es hds hes =>
    obtain ⟨rest, rfl⟩ := hcs
    have hpoint : ∀ y ∈ ('.' :: (es ++ rest)).head?, y.isDigit = false := by simp
    have htake : (ds ++ '.' :: (es ++ rest)).takeWhile Char.isDigit = ds := by
      rw [takeWhile_append_of_head hpoint, List.takeWhile_eq_self_iff.mpr hds]
    have hdrop : (ds ++ '.' :: (es ++ rest)).dropWhile Char.isDigit = '.' :: (es ++ rest) := by
      rw [dropWhile_append_of_head hpoint, List.dropWhile_eq_nil_iff.mpr hds, List.nil_append]
    rw [List.append_assoc, List.cons_append, takeMantissa_of_point hdrop, htake]
    exact (List.prefix_append_right_inj ds).mpr ((List.prefix_cons_inj '.').mpr
      (isPrefix_takeWhile hes (List.prefix_append es rest)))

theorem takeSign_sign {sign ds : List Char} (hs : sign = [] ∨ sign = ['+'] ∨ sign = ['-'])
    (hne : ds ≠ []) (hds : ∀ d ∈ ds, d.isDigit) (rest : List Char) :
    takeSign (sign ++ (ds ++ rest)) = (sign, ds ++ rest) := by
  rcases hs with rfl | rfl | rfl
  · obtain ⟨d, ds, rfl⟩ := List.exists_cons_of_ne_nil hne
    have hd := hds d List.mem_cons_self
    have hplus : d ≠ '+' := by rintro rfl; simp at hd
    have hminus : d ≠ '-' := by rintro rfl; simp at hd
    simp [takeSign, hplus, hminus]
  · rfl
  · rfl

theorem takeSign_fst_cases (cs : List Char) :
    (takeSign cs).1 = [] ∨ (takeSign cs).1 = ['+'] ∨ (takeSign cs).1 = ['-'] := by
  unfold takeSign
  split <;> simp

theorem takeExponent_fst_cases (cs : List Char) :
    (takeExponent cs).1 = [] ∨ IsExponent (takeExponent cs).1 := by
  cases cs with
  | nil => exact .inl rfl
  | cons c cs =>
    by_cases hc : c = 'e' ∨ c = 'E'
    · by_cases hdigits : (takeSign cs).2.takeWhile Char.isDigit = []
      · rw [takeExponent_of_no_digits hdigits]
        exact .inl rfl
      · rw [takeExponent_of_digits hc hdigits]
        exact .inr (.mk hc (takeSign_fst_cases cs) hdigits fun _ hd => List.mem_takeWhile_imp hd)
    · rw [takeExponent_of_not_mark hc]
      exact .inl rfl

theorem IsExponent.isPrefix_takeExponent {x cs : List Char} (h : IsExponent x) (hcs : x <+: cs) :
    x <+: (takeExponent cs).1 := by
  obtain ⟨rest, rfl⟩ := hcs
  cases h with
  | @mk mark sign ds hmark hsign hne hds =>
    have htake := isPrefix_takeWhile hds (List.prefix_append ds rest)
    have hdigits : (takeSign (sign ++ (ds ++ rest))).2.takeWhile Char.isDigit ≠ [] := by
      rw [takeSign_sign hsign hne hds]
      rintro hnil
      exact hne (List.prefix_nil.mp (hnil ▸ htake))
    rw [List.cons_append, List.append_assoc, takeExponent_of_digits hmark hdigits,
      takeSign_sign hsign hne hds]
    exact (List.prefix_cons_inj mark).mpr ((List.prefix_append_right_inj sign).mpr htake)

/-! The longest number. -/

theorem IsMantissa.isDigit_or_point {m : List Char} (h : IsMantissa m) {c : Char} (hc : c ∈ m) :
    c.isDigit ∨ c = '.' := by
  cases h with
  | whole _ hds => exact .inl (hds c hc)
  | point hds hes =>
    rcases List.mem_append.mp hc with hc | hc
    · exact .inl (hds c hc)
    · rcases List.mem_cons.mp hc with rfl | hc
      · exact .inr rfl
      · exact .inl (hes c hc)

theorem IsExponent.exists_cons {x : List Char} (h : IsExponent x) :
    ∃ mark tail, x = mark :: tail ∧ ¬ (mark.isDigit ∨ mark = '.') := by
  cases h with
  | mk hmark _ _ _ =>
    refine ⟨_, _, rfl, ?_⟩
    rcases hmark with rfl | rfl <;> decide

/-- Behind a part of a mantissa that is not the whole of it no exponent starts. -/
theorem IsExponent.eq_of_isPrefix {m part x cs : List Char} (h : IsExponent x) (hm : IsMantissa m)
    (hpart : part <+: m) (hcs : m <+: cs) (hx : part ++ x <+: cs) : part = m := by
  obtain ⟨more, rfl⟩ := hpart
  cases more with
  | nil => exact (List.append_nil _).symm
  | cons d more =>
    obtain ⟨mark, tail, rfl, hmark⟩ := h.exists_cons
    obtain ⟨rest, rfl⟩ := hcs
    rw [List.append_assoc, List.prefix_append_right_inj] at hx
    obtain ⟨rest', hx⟩ := hx
    obtain rfl : mark = d := (List.cons.inj hx).1
    exact absurd (hm.isDigit_or_point (by simp)) hmark

theorem takeNumber_of_mantissa {cs m rest : List Char} (h : takeMantissa cs = (m, rest)) :
    (takeNumber cs).1 = m ∨
      ∃ init d, m = init ++ [d] ∧ d.isDigit ∧ (takeNumber cs).1 = m ++ (takeExponent rest).1 := by
  by_cases hlast : m.getLast?.any Char.isDigit
  · rw [takeNumber_of_digit h hlast]
    obtain ⟨d, hd, hdigit⟩ := (Option.any_eq_true _ _).mp hlast
    obtain ⟨init, hinit⟩ := List.getLast?_eq_some_iff.mp hd
    exact .inr ⟨init, d, hinit, hdigit, rfl⟩
  · rw [takeNumber_of_point h hlast]
    exact .inl rfl

theorem isNumber_takeNumber {c : Char} (hc : c.isDigit ∨ c = '.') (cs : List Char) :
    IsNumber (takeNumber (c :: cs)).1 := by
  have hm := isMantissa_takeMantissa hc cs
  rcases hcut : takeMantissa (c :: cs) with ⟨m, rest⟩
  rw [hcut] at hm
  rcases takeNumber_of_mantissa hcut with h | ⟨init, d, rfl, hd, h⟩
  · rw [h]
    exact .mantissa hm
  · rw [h]
    rcases takeExponent_fst_cases rest with hnone | hx
    · rw [hnone, List.append_nil]
      exact .mantissa hm
    · exact .scaled hm hd hx

theorem isPrefix_takeNumber_of_mantissa {cs m rest : List Char} (h : takeMantissa cs = (m, rest)) :
    m <+: (takeNumber cs).1 := by
  rcases takeNumber_of_mantissa h with h | ⟨init, d, -, -, h⟩
  · rw [h]
  · rw [h]
    exact List.prefix_append _ _

/-- Every number at the front of a text is a part of the one that is taken. -/
theorem IsNumber.isPrefix_takeNumber {literal cs : List Char} (h : IsNumber literal)
    {c : Char} (hc : c.isDigit ∨ c = '.') (hcs : literal <+: c :: cs) :
    literal <+: (takeNumber (c :: cs)).1 := by
  have hm := isMantissa_takeMantissa hc cs
  have happend := takeMantissa_append (c :: cs)
  rcases hcut : takeMantissa (c :: cs) with ⟨m, rest⟩
  rw [hcut] at hm happend
  cases h with
  | mantissa hmantissa =>
    have hfront := hmantissa.isPrefix_takeMantissa hcs
    rw [hcut] at hfront
    exact hfront.trans (isPrefix_takeNumber_of_mantissa hcut)
  | @scaled part d x hpart hd hx =>
    have hfront := hpart.isPrefix_takeMantissa ((List.prefix_append _ x).trans hcs)
    rw [hcut] at hfront
    obtain rfl : part ++ [d] = m := hx.eq_of_isPrefix hm hfront ⟨rest, happend⟩ hcs
    rw [takeNumber_of_digit hcut (by simp [hd]), List.prefix_append_right_inj]
    rw [← happend, List.prefix_append_right_inj] at hcs
    exact hx.isPrefix_takeExponent hcs

theorem longest_takeNumber {c : Char} (hc : c.isDigit ∨ c = '.') (cs : List Char) :
    Longest IsNumber (c :: cs) (takeNumber (c :: cs)).1 where
  member := isNumber_takeNumber hc cs
  front := ⟨_, takeNumber_append (c :: cs)⟩
  longest _ hother hfront := (hother.isPrefix_takeNumber hc hfront).length_le

theorem IsNumber.takeNumber_eq {c : Char} {cs : List Char} (h : IsNumber (c :: cs))
    (hc : c.isDigit ∨ c = '.') : takeNumber (c :: cs) = (c :: cs, []) := by
  have happend := takeNumber_append (c :: cs)
  obtain ⟨rest, hrest⟩ := h.isPrefix_takeNumber hc (List.prefix_refl _)
  rw [← hrest, List.append_assoc, List.append_right_eq_self, List.append_eq_nil_iff] at happend
  exact Prod.ext (by rw [← hrest, happend.1, List.append_nil]) happend.2

/-! What a number denotes. -/

theorem digits?_eq {ds : List Char} (hne : ds ≠ []) (hds : ∀ d ∈ ds, d.isDigit) :
    Number.digits? ds = some (Nat.ofDigitChars 10 ds 0) :=
  if_pos ⟨hne, List.all_eq_true.mpr hds⟩

theorem signedDigits?_of_isDigit {d : Char} (hd : d.isDigit) (ds : List Char) :
    Number.signedDigits? (d :: ds) = (Number.digits? (d :: ds)).map fun n => (n : Int) := by
  unfold Number.signedDigits?
  split
  · rename_i h
    obtain ⟨rfl, -⟩ := List.cons.inj h
    simp at hd
  · rename_i h
    obtain ⟨rfl, -⟩ := List.cons.inj h
    simp at hd
  · rfl

theorem IsExponent.exists_exponent? {x : List Char} (h : IsExponent x) :
    ∃ e, Number.exponent? x = some e := by
  cases h with
  | @mk mark sign ds hmark hsign hne hds =>
    have hn := digits?_eq hne hds
    rw [Number.exponent?, if_pos hmark]
    rcases hsign with rfl | rfl | rfl
    · obtain ⟨d, ds, rfl⟩ := List.exists_cons_of_ne_nil hne
      rw [List.nil_append, signedDigits?_of_isDigit (hds d List.mem_cons_self), hn]
      exact ⟨_, rfl⟩
    · rw [List.singleton_append, Number.signedDigits?, hn]
      exact ⟨_, rfl⟩
    · rw [List.singleton_append, Number.signedDigits?, hn]
      exact ⟨_, rfl⟩

theorem fraction_of_no_point {cs : List Char} (h : ∀ c ∈ cs.head?, c ≠ '.') :
    Number.fraction cs = ([], cs) := by
  unfold Number.fraction
  split
  · exact absurd rfl (h '.' rfl)
  · rfl

section

variable {ds es tail : List Char} (hds : ∀ d ∈ ds, d.isDigit)
  (hdigit : ∀ c ∈ tail.head?, c.isDigit = false)
include hds hdigit

theorem ofChars?_whole (hne : ds ≠ []) (hpoint : ∀ c ∈ tail.head?, c ≠ '.') :
    Number.Decimal.ofChars? (ds ++ tail) =
      (Number.exponent? tail).map fun e => ⟨Nat.ofDigitChars 10 ds 0, e⟩ := by
  simp [Number.Decimal.ofChars?, takeWhile_append_of_head hdigit, dropWhile_append_of_head hdigit,
    List.takeWhile_eq_self_iff.mpr hds, List.dropWhile_eq_nil_iff.mpr hds,
    fraction_of_no_point hpoint, hne]

theorem ofChars?_point (hes : ∀ d ∈ es, d.isDigit) (hsome : ¬ (ds = [] ∧ es = [])) :
    Number.Decimal.ofChars? (ds ++ '.' :: (es ++ tail)) =
      (Number.exponent? tail).map fun e => ⟨Nat.ofDigitChars 10 (ds ++ es) 0, e - es.length⟩ := by
  have hfront : ∀ c ∈ ('.' :: (es ++ tail)).head?, c.isDigit = false := by simp
  simp only [Number.Decimal.ofChars?, takeWhile_append_of_head hfront,
    dropWhile_append_of_head hfront, List.takeWhile_eq_self_iff.mpr hds,
    List.dropWhile_eq_nil_iff.mpr hds, List.nil_append, Number.fraction,
    takeWhile_append_of_head hdigit, dropWhile_append_of_head hdigit,
    List.takeWhile_eq_self_iff.mpr hes, List.dropWhile_eq_nil_iff.mpr hes, if_neg hsome]

end

theorem IsMantissa.exists_ofChars? {m x : List Char} (h : IsMantissa m)
    (hdigit : ∃ d ∈ m, d.isDigit) (hx : x = [] ∨ IsExponent x) :
    ∃ y, Number.Decimal.ofChars? (m ++ x) = some y := by
  have hexponent : ∃ e, Number.exponent? x = some e := by
    rcases hx with rfl | hx
    · exact ⟨0, rfl⟩
    · exact hx.exists_exponent?
  have hhead : ∀ c ∈ x.head?, c.isDigit = false ∧ c ≠ '.' := by
    rcases hx with rfl | hx
    · simp
    · obtain ⟨mark, tail, rfl, hmark⟩ := hx.exists_cons
      simpa using hmark
  have hnodigit : ∀ c ∈ x.head?, c.isDigit = false := fun c hc => (hhead c hc).1
  obtain ⟨e, he⟩ := hexponent
  cases h with
  | whole hne hds =>
    rw [ofChars?_whole hds hnodigit hne fun c hc => (hhead c hc).2, he]
    exact ⟨_, rfl⟩
  | @point ds es hds hes =>
    have hsome : ¬ (ds = [] ∧ es = []) := by
      rintro ⟨rfl, rfl⟩
      simp at hdigit
    rw [List.append_assoc, List.cons_append, ofChars?_point hds hnodigit hes hsome, he]
    exact ⟨_, rfl⟩

theorem IsMantissa.exists_cons {m : List Char} (h : IsMantissa m) :
    ∃ c cs, m = c :: cs ∧ (c.isDigit ∨ c = '.') := by
  have hne : m ≠ [] := by
    cases h with
    | whole hne _ => exact hne
    | point _ _ => simp
  obtain ⟨c, cs, rfl⟩ := List.exists_cons_of_ne_nil hne
  exact ⟨c, cs, rfl, h.isDigit_or_point List.mem_cons_self⟩

theorem IsNumber.exists_read {literal : List Char} (h : IsNumber literal)
    (hdigit : ∃ d ∈ literal, d.isDigit) : ∃ value, Number.read literal = .ok value := by
  obtain ⟨m, x, rfl, hm, hx, hdigit⟩ : ∃ m x, literal = m ++ x ∧ IsMantissa m ∧
      (x = [] ∨ IsExponent x) ∧ ∃ d ∈ m, d.isDigit := by
    cases h with
    | mantissa hm => exact ⟨literal, [], (List.append_nil _).symm, hm, .inl rfl, hdigit⟩
    | @scaled m d x hm hd hx => exact ⟨m ++ [d], x, rfl, hm, .inr hx, d, by simp, hd⟩
  obtain ⟨y, hy⟩ := hm.exists_ofChars? hdigit hx
  obtain ⟨c, cs, rfl, hc⟩ := hm.exists_cons
  rw [List.cons_append] at hy ⊢
  rw [Number.read_of_digit_or_point (by simpa using hc), hy]
  exact ⟨_, rfl⟩

theorem IsNumber.eq_point {literal : List Char} (h : IsNumber literal)
    (hno : ∀ d ∈ literal, ¬ d.isDigit) : literal = ['.'] := by
  have hnil {ds : List Char} (hds : ∀ d ∈ ds, d.isDigit) (hsub : ds ⊆ literal) : ds = [] :=
    List.eq_nil_iff_forall_not_mem.mpr fun d hd => hno d (hsub hd) (hds d hd)
  cases h with
  | mantissa hm =>
    cases hm with
    | whole hne hds => exact absurd (hnil hds (List.Subset.refl _)) hne
    | point hds hes =>
      rw [hnil hds (by simp), hnil hes (by simp)]
      rfl
  | scaled _ hd _ => exact absurd hd (hno _ (by simp))

end Formula.Token
