import Formula.Proofs.Tiling

/-! Tokens in other surroundings. A number looks further ahead than it goes, for an exponent that
may turn out to have no digits. If the text is cut off anywhere behind a token, the token is read as
before; so it is read as before in front of any border, too, and each token by itself is read as
this one token. -/

namespace Formula.Token

open Text (isBlank trimStart byteLength)

theorem span_cut {p : Char → Bool} {cs a b : List Char} (h : cs.dropWhile p = a ++ b) :
    (cs.takeWhile p ++ a).takeWhile p = cs.takeWhile p ∧
      (cs.takeWhile p ++ a).dropWhile p = a := by
  have hall : ∀ d ∈ cs.takeWhile p, p d := fun d hd => List.mem_takeWhile_imp hd
  have hhead : ∀ d ∈ a.head?, p d = false := by
    intro d hd
    have hnot := List.head?_dropWhile_not p cs
    rw [h, List.head?_append, hd] at hnot
    simpa using hnot
  rw [takeWhile_append_of_head hhead, dropWhile_append_of_head hhead,
    List.takeWhile_eq_self_iff.mpr hall, List.dropWhile_eq_nil_iff.mpr hall]
  exact ⟨rfl, rfl⟩

theorem takeMantissa_of_point {cs tail : List Char} (h : cs.dropWhile Char.isDigit = '.' :: tail) :
    takeMantissa cs = (cs.takeWhile Char.isDigit ++ '.' :: tail.takeWhile Char.isDigit,
      tail.dropWhile Char.isDigit) := by
  simp only [takeMantissa, h]

theorem takeMantissa_of_no_point {cs : List Char}
    (h : ∀ d ∈ (cs.dropWhile Char.isDigit).head?, d ≠ '.') :
    takeMantissa cs = (cs.takeWhile Char.isDigit, cs.dropWhile Char.isDigit) := by
  unfold takeMantissa
  split
  · rename_i tail hdrop
    rw [hdrop] at h
    exact absurd rfl (h '.' rfl)
  · rfl

theorem takeMantissa_cut {cs m a b : List Char} (h : takeMantissa cs = (m, a ++ b)) :
    takeMantissa (m ++ a) = (m, a) := by
  by_cases hpoint : ∃ tail, cs.dropWhile Char.isDigit = '.' :: tail
  · obtain ⟨tail, hdrop⟩ := hpoint
    rw [takeMantissa_of_point hdrop] at h
    obtain ⟨rfl, hrest⟩ := Prod.mk.inj h
    obtain ⟨htake, hleft⟩ := span_cut hrest
    have hwhole : cs.dropWhile Char.isDigit = '.' :: (tail.takeWhile Char.isDigit ++ a) ++ b := by
      rw [hdrop, List.cons_append, List.append_assoc, ← hrest, List.takeWhile_append_dropWhile]
    obtain ⟨hdigits, hpoint⟩ := span_cut hwhole
    rw [List.append_assoc, List.cons_append, takeMantissa_of_point hpoint, hdigits, htake, hleft]
  · have hno : ∀ d ∈ (cs.dropWhile Char.isDigit).head?, d ≠ '.' := by
      rintro d hd rfl
      obtain ⟨tail, htail⟩ := List.head?_eq_some_iff.mp hd
      exact hpoint ⟨tail, htail⟩
    rw [takeMantissa_of_no_point hno] at h
    obtain ⟨rfl, hrest⟩ := Prod.mk.inj h
    obtain ⟨htake, hleft⟩ := span_cut hrest
    rw [takeMantissa_of_no_point, htake, hleft]
    rw [hleft]
    intro d hd
    exact hno d (by rw [hrest, List.head?_append, hd]; rfl)

theorem takeSign_cut {cs s a b : List Char} (h : takeSign cs = (s, a ++ b)) :
    takeSign (s ++ a) = (s, a) := by
  unfold takeSign at h
  split at h
  · obtain ⟨rfl, hrest⟩ := Prod.mk.inj h
    rfl
  · obtain ⟨rfl, hrest⟩ := Prod.mk.inj h
    rfl
  · rename_i hplus hminus
    obtain ⟨rfl, rfl⟩ := Prod.mk.inj h
    cases a with
    | nil => rfl
    | cons d a =>
      unfold takeSign
      split <;> simp_all

theorem takeSign_append_of_ne_nil {a : List Char} (h : a ≠ []) (b : List Char) :
    takeSign (a ++ b) = ((takeSign a).1, (takeSign a).2 ++ b) := by
  obtain ⟨c, a, rfl⟩ := List.exists_cons_of_ne_nil h
  by_cases hp : c = '+'
  · subst hp
    rfl
  · by_cases hm : c = '-'
    · subst hm
      rfl
    · simp [takeSign, hp, hm]

theorem takeExponent_of_not_mark {c : Char} (h : ¬ (c = 'e' ∨ c = 'E')) (cs : List Char) :
    takeExponent (c :: cs) = ([], c :: cs) := by
  simp only [takeExponent, if_neg h]

theorem takeExponent_of_no_digits {c : Char} {cs : List Char}
    (h : (takeSign cs).2.takeWhile Char.isDigit = []) : takeExponent (c :: cs) = ([], c :: cs) := by
  simp only [takeExponent, h, if_true, ite_self]

theorem takeExponent_of_digits {c : Char} {cs : List Char} (hc : c = 'e' ∨ c = 'E')
    (h : (takeSign cs).2.takeWhile Char.isDigit ≠ []) :
    takeExponent (c :: cs) = (c :: ((takeSign cs).1 ++ (takeSign cs).2.takeWhile Char.isDigit),
      (takeSign cs).2.dropWhile Char.isDigit) := by
  simp only [takeExponent, if_pos hc, if_neg h]

theorem takeExponent_of_cut {a b : List Char} (h : (takeExponent (a ++ b)).1 = []) :
    takeExponent a = ([], a) := by
  cases a with
  | nil => rfl
  | cons c a =>
    by_cases hc : c = 'e' ∨ c = 'E'
    · apply takeExponent_of_no_digits
      by_contra hdigits
      have hne : a ≠ [] := by
        rintro rfl
        exact hdigits rfl
      have happend : (takeSign (a ++ b)).2.takeWhile Char.isDigit ≠ [] := by
        rw [takeSign_append_of_ne_nil hne]
        cases hrest : (takeSign a).2 with
        | nil => exact absurd (by rw [hrest]; rfl) hdigits
        | cons d rest =>
          rw [hrest, List.takeWhile_cons] at hdigits
          rw [List.cons_append, List.takeWhile_cons]
          split at hdigits <;> simp_all
      rw [List.cons_append, takeExponent_of_digits hc happend] at h
      cases h
    · exact takeExponent_of_not_mark hc a

theorem takeExponent_cut {cs e a b : List Char} (h : takeExponent cs = (e, a ++ b)) :
    takeExponent (e ++ a) = (e, a) := by
  have happend := takeExponent_append cs
  rw [h] at happend
  cases e with
  | nil =>
    subst happend
    exact takeExponent_of_cut (congrArg Prod.fst h)
  | cons c e =>
    subst happend
    rw [List.cons_append] at h
    by_cases hc : c = 'e' ∨ c = 'E'
    · by_cases hdigits : (takeSign (e ++ (a ++ b))).2.takeWhile Char.isDigit = []
      · rw [takeExponent_of_no_digits hdigits] at h
        cases h
      · rw [takeExponent_of_digits hc hdigits] at h
        obtain ⟨hmark, hrest⟩ := Prod.mk.inj h
        obtain ⟨htake, hleft⟩ := span_cut hrest
        rcases hsign : takeSign (e ++ (a ++ b)) with ⟨s, r⟩
        rw [hsign] at hmark hrest hdigits htake hleft
        have hr : r = (r.takeWhile Char.isDigit ++ a) ++ b := by
          rw [List.append_assoc, ← hrest, List.takeWhile_append_dropWhile]
        have hcut := takeSign_cut (hsign.trans (congrArg (Prod.mk s) hr))
        obtain rfl : s ++ r.takeWhile Char.isDigit = e := (List.cons.inj hmark).2
        rw [← List.append_assoc] at hcut
        rw [List.cons_append, takeExponent_of_digits hc, hcut, htake, hleft]
        rwa [hcut, htake]
    · rw [takeExponent_of_not_mark hc] at h
      cases h

theorem takeNumber_of_digit {cs m rest : List Char} (h : takeMantissa cs = (m, rest))
    (hm : m.getLast?.any Char.isDigit) :
    takeNumber cs = (m ++ (takeExponent rest).1, (takeExponent rest).2) := by
  simp only [takeNumber, h, hm, if_true]

theorem takeNumber_of_point {cs m rest : List Char} (h : takeMantissa cs = (m, rest))
    (hm : ¬ m.getLast?.any Char.isDigit) : takeNumber cs = (m, rest) := by
  simp only [takeNumber, h, hm]
  rfl

theorem takeNumber_cut {cs l a b : List Char} (h : takeNumber cs = (l, a ++ b)) :
    takeNumber (l ++ a) = (l, a) := by
  rcases hmantissa : takeMantissa cs with ⟨m, rest⟩
  by_cases hm : m.getLast?.any Char.isDigit
  · rw [takeNumber_of_digit hmantissa hm] at h
    rcases hexponent : takeExponent rest with ⟨e, left⟩
    rw [hexponent] at h
    obtain ⟨rfl, rfl⟩ := Prod.mk.inj h
    have hrest := takeExponent_append rest
    rw [hexponent, ← List.append_assoc] at hrest
    rw [← hrest] at hmantissa
    rw [List.append_assoc, takeNumber_of_digit (takeMantissa_cut hmantissa) hm,
      takeExponent_cut hexponent]
  · rw [takeNumber_of_point hmantissa hm] at h
    obtain ⟨rfl, rfl⟩ := Prod.mk.inj h
    exact takeNumber_of_point (takeMantissa_cut hmantissa) hm

theorem exists_lexeme (c : Char) (cs : List Char) :
    ∃ kind ds rest, lexeme c cs = (kind, c :: ds, rest) ∧ cs = ds ++ rest := by
  rcases hl : lexeme c cs with ⟨kind, literal, rest⟩
  have happend := lexeme_append c cs
  have hne := lexeme_ne_nil c cs
  rw [hl] at happend hne
  obtain ⟨d, ds, rfl⟩ := List.exists_cons_of_ne_nil hne
  obtain ⟨rfl, hcs⟩ := List.cons.inj happend
  exact ⟨kind, ds, rest, rfl, hcs.symm⟩

/-- A lexeme is read as before if the text is cut off behind it. -/
theorem lexeme_cut {c : Char} {cs ds a b : List Char} {kind : Kind}
    (h : lexeme c cs = (kind, c :: ds, a ++ b)) : lexeme c (ds ++ a) = (kind, c :: ds, a) := by
  cases hfixed : punctuation? c with
  | some fixed =>
    simp only [lexeme, hfixed] at h ⊢
    cases h
    rfl
  | none =>
    by_cases hname : startsName c
    · simp only [lexeme, hfixed, hname, if_true, Prod.mk.injEq, List.cons.injEq, true_and] at h ⊢
      obtain ⟨rfl, rfl, hrest⟩ := h
      obtain ⟨htake, hleft⟩ := span_cut hrest
      exact ⟨rfl, htake, hleft⟩
    · by_cases hnumber : c.isDigit || c = '.'
      · rcases htake : takeNumber (c :: cs) with ⟨literal, rest⟩
        simp only [lexeme, hfixed, hname, hnumber, htake, if_true] at h ⊢
        obtain ⟨rfl, rfl, rfl⟩ := h
        have hcut := takeNumber_cut htake
        rw [List.cons_append] at hcut
        simp [hcut]
      · simp only [lexeme, hfixed, hname, hnumber] at h ⊢
        cases h
        rfl

/-- A lexeme is read as before if the text goes on in another way, from a border on. -/
theorem lexeme_replace {c : Char} {cs ds a b v : List Char} {kind : Kind}
    (h : lexeme c cs = (kind, c :: ds, a ++ b)) (hv : Separate v) :
    lexeme c (ds ++ (a ++ v)) = (kind, c :: ds, a ++ v) := by
  rw [← List.append_assoc, lexeme_append_border hv, lexeme_cut h]

/-- The token is what its text by itself is read as. -/
def Lone (t : Token) : Prop :=
  ∃ c ds, t.literal = String.ofList (c :: ds) ∧ isBlank c = false ∧
    lexeme c ds = (t.kind, c :: ds, [])

theorem lone_of_mem_scanAll {offset : Nat} {cs : List Char} {t : Token}
    (h : t ∈ scanAll offset cs) : t.Lone := by
  fun_induction scanAll offset cs with
  | case1 => cases h
  | case2 offset cs first hend ih =>
    rcases List.mem_cons.mp h with rfl | h
    · obtain ⟨c, rest, hc⟩ := List.exists_cons_of_ne_nil (mt isEnd_scan_iff.mpr hend)
      obtain ⟨kind, ds, left, hl, -⟩ := exists_lexeme c rest
      have hfirst : first = _ := scan_of_trimStart_cons hc offset
      rw [hfirst, hl]
      refine ⟨c, ds, rfl, not_isBlank_of_trimStart_cons hc, ?_⟩
      have hcut := lexeme_cut (a := []) (b := left) hl
      rwa [List.append_nil] at hcut
    · exact ih h

theorem Lone.scanAll_append {t : Token} (h : t.Lone) {ds : List Char} (hds : Separate ds)
    (offset : Nat) : scanAll offset (t.literal.toList ++ ds) =
      ⟨t.kind, t.literal, offset⟩ :: scanAll (offset + byteLength t.literal.toList) ds := by
  obtain ⟨c, cs, hliteral, hc, hl⟩ := h
  rw [hliteral, String.toList_ofList, List.cons_append, scanAll_cons hc, lexeme_append_border hds,
    hl]
  rfl

/-- Tokens of one kind with one text. -/
structure Same (t u : Token) : Prop where
  kind : u.kind = t.kind
  literal : u.literal = t.literal

theorem same_scanAll (cs : List Char) (offset other : Nat) :
    List.Forall₂ Same (scanAll offset cs) (scanAll other cs) := by
  fun_induction scanAll offset cs generalizing other with
  | case1 offset cs first hend =>
    rw [scanAll_of_trimStart_nil (isEnd_scan_iff.mp hend)]
    exact .nil
  | case2 offset cs first hend ih =>
    obtain ⟨c, rest, hc⟩ := List.exists_cons_of_ne_nil (mt isEnd_scan_iff.mpr hend)
    have hfirst : first = _ := scan_of_trimStart_cons hc offset
    rw [scanAll_of_trimStart_cons hc]
    simp only [hfirst, scan_of_trimStart_cons hc] at ih ⊢
    exact .cons ⟨rfl, rfl⟩ (ih _)

end Formula.Token
