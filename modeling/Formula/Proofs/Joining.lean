import Formula.Proofs.Borders

/-! Tokens of texts that are put together. Where a text starts only moves its tokens; so in front of
a border the tokens of the whole are those of the first part and, moved by its length, those of the
second. -/

namespace Formula.Token

open Text (isBlank trimStart byteLength)

def moved (distance : Nat) (t : Token) : Token := { t with offset := t.offset + distance }

theorem stop_moved (distance : Nat) (t : Token) :
    (t.moved distance).stop = t.stop + distance :=
  Nat.add_right_comm t.offset distance t.span.length

theorem scan_add (offset distance : Nat) (cs : List Char) :
    scan (offset + distance) cs = ((scan offset cs).1.moved distance, (scan offset cs).2) := by
  cases hc : trimStart cs with
  | nil =>
    rw [scan_of_trimStart_nil hc, scan_of_trimStart_nil hc, Nat.add_right_comm]
    rfl
  | cons c rest =>
    rw [scan_of_trimStart_cons hc, scan_of_trimStart_cons hc, Nat.add_right_comm]
    rfl

theorem scanAll_add (offset distance : Nat) (cs : List Char) :
    scanAll (offset + distance) cs = (scanAll offset cs).map (moved distance) := by
  fun_induction scanAll offset cs with
  | case1 offset cs first hend =>
    exact scanAll_of_trimStart_nil (isEnd_scan_iff.mp hend) _
  | case2 offset cs first hend ih =>
    obtain ⟨c, rest, hc⟩ := List.exists_cons_of_ne_nil (mt isEnd_scan_iff.mpr hend)
    rw [scanAll_of_trimStart_cons hc, scan_add, stop_moved, ih]
    rfl

theorem endOf_append (file : Option String) (s t : String) :
    endOf ⟨file, s ++ t⟩ = (endOf ⟨file, t⟩).moved (byteLength s.toList) := by
  have hsize : Text.Source.size ⟨file, s ++ t⟩ =
      Text.Source.size ⟨file, t⟩ + byteLength s.toList := by
    simp only [Text.Source.size, String.toList_append, Text.byteLength_append, Nat.add_comm]
  rw [endOf, hsize]
  rfl

/-- In front of a border two texts are cut into tokens each by itself: the tokens of the second one
only stand further on by the length of the first, and so does the end. -/
theorem ofText_append {s t : String} (h : Separate t.toList) :
    ofText (s ++ t) = ofText s ++ (ofText t).map (moved (byteLength s.toList)) ∧
    ∀ file, withEnd ⟨file, s ++ t⟩ =
      ofText s ++ (withEnd ⟨file, t⟩).map (moved (byteLength s.toList)) := by
  have htokens : ofText (s ++ t) = ofText s ++ (ofText t).map (moved (byteLength s.toList)) := by
    rw [ofText, String.toList_append, scanAll_append h, scanAll_add]
    rfl
  refine ⟨htokens, fun file => ?_⟩
  rw [withEnd, withEnd, htokens, endOf_append, List.map_append, List.append_assoc]
  rfl

/-- The first text ends in a mark and a sign of an exponent that has no digits, and the border in
front of which it stands is a blank of three bytes. -/
theorem ofText_append_noExponent :
    Separate "\u2003(3)".toList ∧
      ofText ("é2e+" ++ "\u2003(3)") = [⟨.invalid, "é", 0⟩, ⟨.number 2, "2", 2⟩, ⟨.name, "e", 3⟩,
        ⟨.plus, "+", 4⟩, ⟨.leftParen, "(", 8⟩, ⟨.number 3, "3", 9⟩, ⟨.rightParen, ")", 10⟩] := by
  have h : Separate "\u2003(3)".toList := by
    intro c hc
    obtain rfl : '\u2003' = c := Option.some.inj hc
    decide
  have hfirst : ofText "é2e+" = [⟨.invalid, "é", 0⟩, ⟨.number 2, "2", 2⟩, ⟨.name, "e", 3⟩,
      ⟨.plus, "+", 4⟩] := by decide +kernel
  have hsecond : ofText "\u2003(3)" = [⟨.leftParen, "(", 3⟩, ⟨.number 3, "3", 4⟩,
      ⟨.rightParen, ")", 5⟩] := by decide +kernel
  refine ⟨h, ?_⟩
  rw [(ofText_append h).1, hfirst, hsecond]
  decide +kernel

end Formula.Token
