import Formula.Proofs.Diagnosis
import Formula.Proofs.Correspondence
import Formula.Proofs.Relexing

/-! The same tokens with other blanks between them. Each token is read again out of its old
surroundings, so that blanks matter no further than that they separate: a text keeps its tokens,
whatever they are, and its tree or its error. -/

namespace Formula

namespace Token

open Text (isBlank trimStart byteLength)

/-- The texts of the tokens with a gap in front of each and one behind the last. -/
def spell (gaps : Nat → List Char) : List Token → List Char
  | [] => gaps 0
  | t :: ts => gaps 0 ++ (t.literal.toList ++ spell (fun i => gaps (i + 1)) ts)

def place (gaps : Nat → List Char) (offset : Nat) : List Token → List Token
  | [] => []
  | t :: ts =>
    let start := offset + byteLength (gaps 0)
    ⟨t.kind, t.literal, start⟩ ::
      place (fun i => gaps (i + 1)) (start + byteLength t.literal.toList) ts

/-- The gaps around `count` tokens are blank, and there is one between any two tokens. -/
structure Spaces (gaps : Nat → List Char) (count : Nat) : Prop where
  blank : ∀ i ≤ count, ∀ c ∈ gaps i, isBlank c
  between : ∀ i, 0 < i → i < count → gaps i ≠ []

section Spaces

variable {gaps : Nat → List Char} {count : Nat}

theorem Spaces.tail (h : Spaces gaps (count + 1)) : Spaces (fun i => gaps (i + 1)) count := by
  constructor
  · exact fun i hi => h.blank (i + 1) (Nat.succ_le_succ hi)
  · exact fun i _ hi => h.between (i + 1) (Nat.succ_pos i) (Nat.succ_lt_succ hi)

theorem Spaces.separate_spell {ts : List Token} (h : Spaces gaps (ts.length + 1)) :
    Separate (spell (fun i => gaps (i + 1)) ts) := by
  have hborder : ∀ c ∈ (gaps 1).head?, isBorder c := by
    intro c hc
    simp [isBorder, h.blank 1 (Nat.le_add_left 1 _) c (List.mem_of_mem_head? hc)]
  cases ts with
  | nil => exact hborder
  | cons t ts =>
    have hne : gaps 1 ≠ [] := h.between 1 Nat.one_pos (by simp)
    intro c hc
    rw [spell, List.head?_append_of_ne_nil _ hne] at hc
    exact hborder c hc

theorem scanAll_spell {ts : List Token} (hts : ∀ t ∈ ts, t.Lone) (h : Spaces gaps ts.length)
    (offset : Nat) : scanAll offset (spell gaps ts) = place gaps offset ts := by
  induction ts generalizing gaps offset with
  | nil =>
    exact scanAll_of_trimStart_nil (List.dropWhile_eq_nil_iff.mpr (h.blank 0 le_rfl)) offset
  | cons t ts ih =>
    have hblank : trimStart (gaps 0) = [] :=
      List.dropWhile_eq_nil_iff.mpr (h.blank 0 (Nat.zero_le _))
    rw [spell, place, scanAll_blanks_append hblank,
      (hts t List.mem_cons_self).scanAll_append h.separate_spell,
      ih (fun u hu => hts u (List.mem_cons_of_mem t hu)) h.tail]

theorem same_place (gaps : Nat → List Char) (offset : Nat) (ts : List Token) :
    List.Forall₂ Same ts (place gaps offset ts) := by
  induction ts generalizing gaps offset with
  | nil => exact .nil
  | cons t ts ih => exact .cons ⟨rfl, rfl⟩ (ih _ _)

theorem spell_congr {ts us : List Token} (h : List.Forall₂ Same ts us) (gaps : Nat → List Char) :
    spell gaps us = spell gaps ts := by
  induction h generalizing gaps with
  | nil => rfl
  | cons hsame _ ih => rw [spell, spell, hsame.literal, ih]

end Spaces

def respace (gaps : Nat → List Char) (text : String) : String :=
  String.ofList (spell gaps (ofText text))

theorem ofText_respace {gaps : Nat → List Char} {text : String}
    (h : Spaces gaps (ofText text).length) :
    ofText (respace gaps text) = place gaps 0 (ofText text) := by
  rw [ofText, respace, String.toList_ofList]
  exact scanAll_spell (fun _ ht => lone_of_mem_scanAll ht) h 0

end Token

open Token (Spaces ofText place respace Same)

/-- With other blanks between its tokens a text has the same tokens, where they stand now, and the
same tree or the same error at the token that stands for the old one. Spelling it anew once more
leads to the text that is spelled with the last gaps. -/
theorem parseSource_respace (source : Text.Source) (gaps : Nat → List Char)
    (h : Spaces gaps (ofText source.text).length) :
    ofText (respace gaps source.text) = place gaps 0 (ofText source.text) ∧
    List.Forall₂ Same (ofText source.text) (ofText (respace gaps source.text)) ∧
    ((∃ t, parseSource source = .ok t ∧
        parseSource ⟨source.file, respace gaps source.text⟩ = .ok t) ∨
      ∃ e e', parseSource source = .error e ∧
        parseSource ⟨source.file, respace gaps source.text⟩ = .error e' ∧
        SyntaxError.Matches source ⟨source.file, respace gaps source.text⟩ e e') ∧
    ∀ gaps', respace gaps' (respace gaps source.text) = respace gaps' source.text := by
  have htokens := Token.ofText_respace h
  have hsame : List.Forall₂ Same (ofText source.text) (ofText (respace gaps source.text)) := by
    rw [htokens]
    exact Token.same_place gaps 0 _
  refine ⟨htokens, hsame, parseSource_same hsame, fun gaps' => ?_⟩
  rw [respace, Token.spell_congr hsame, ← respace]

/-- Numbers, names and a stray character, without blanks between them, and a product. -/
theorem parseSource_respace_adjacent :
    let wide : Nat → List Char := fun _ => ['\u2003']
    let spaced (source : Text.Source) : Text.Source := ⟨source.file, respace wide source.text⟩
    let adjacent : Text.Source := ⟨none, "2e+.5e1.2.3$"⟩
    let product : Text.Source := ⟨none, "-x*y"⟩
    let error : SyntaxError := ⟨adjacent, ⟨1, 1⟩, .trailingInput "e"⟩
    let tree : Node := .binary .multiply (.unary .negate (.var "x")) (.var "y")
    Spaces wide (ofText adjacent.text).length ∧ Spaces wide (ofText product.text).length ∧
      ofText (spaced adjacent).text = place wide 0 (ofText adjacent.text) ∧
      parseSource adjacent = .error error ∧
      (∃ error', parseSource (spaced adjacent) = .error error' ∧
        SyntaxError.Matches adjacent (spaced adjacent) error error') ∧
      parseSource product = .ok tree ∧ parseSource (spaced product) = .ok tree ∧
      respace (fun _ => [' ']) (spaced adjacent).text = " 2 e + .5e1 .2 .3 $ " := by
  intro wide spaced adjacent product error tree
  have hspaces (count : Nat) : Spaces wide count := by
    constructor
    · intro i _ c hc
      obtain rfl := List.mem_singleton.mp hc
      decide
    · exact fun _ _ _ => List.cons_ne_nil _ _
  have hone : respace (fun _ => [' ']) adjacent.text = " 2 e + .5e1 .2 .3 $ " := by
    decide +kernel
  have hadjacent : ofText adjacent.text = [⟨.number 2, "2", 0⟩, ⟨.name, "e", 1⟩, ⟨.plus, "+", 2⟩,
      ⟨.number 5, ".5e1", 3⟩, ⟨.number 0.2, ".2", 7⟩, ⟨.number 0.3, ".3", 9⟩,
      ⟨.invalid, "$", 11⟩] := by decide +kernel
  have hproduct : ofText product.text = [⟨.minus, "-", 0⟩, ⟨.name, "x", 1⟩, ⟨.star, "*", 2⟩,
      ⟨.name, "y", 3⟩] := by decide +kernel
  have herror : parseSource adjacent = .error error := by
    refine parseSource_eq_error_iff.mpr ⟨⟨.finish, (ofText adjacent.text).drop 1⟩, ?_, ?_⟩
    · rw [hadjacent]
      exact run_start_eq_error.mp rfl
    · rw [hadjacent]
      rfl
  have htree : parseSource product = .ok tree := by
    rw [parseSource_eq_ok, hproduct]
    exact .sum (.multiply (.product (.negative rfl (.unary (.var (n := ⟨.name, "x", 1⟩) rfl)))) rfl
      (.unary (.var (n := ⟨.name, "y", 3⟩) rfl)))
  obtain ⟨htokens, -, hmatches, hagain⟩ := parseSource_respace adjacent wide (hspaces _)
  obtain ⟨-, -, hsame, -⟩ := parseSource_respace product wide (hspaces _)
  refine ⟨hspaces _, hspaces _, htokens, herror, ?_, htree, ?_, (hagain _).trans hone⟩
  · rcases hmatches with ⟨t, ht, -⟩ | ⟨e, error', he, herror', hmatch⟩
    · cases herror.symm.trans ht
    · obtain rfl := Except.error.inj (herror.symm.trans he)
      exact ⟨error', herror', hmatch⟩
  · rcases hsame with ⟨t, ht, ht'⟩ | ⟨e, -, he, -⟩
    · rwa [← Except.ok.inj (htree.symm.trans ht)] at ht'
    · cases htree.symm.trans he

end Formula
