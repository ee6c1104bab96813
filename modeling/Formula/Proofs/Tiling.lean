import Formula.Token.Cursor
import Formula.Proofs.Borders

/-! The tokens of a text and the blanks between them make up the text. A token is a piece of the
text without a blank in it, and what is left out is blank. -/

namespace Formula.Token

open Text (isBlank trimStart byteLength)

/-- The tokens stand one after the other in a text whose first byte has the given offset, with
nothing but blanks before, between and after them. -/
inductive Tiles : Nat → List Char → List Token → Prop
  | nil {offset gap} : (∀ c ∈ gap, isBlank c) → Tiles offset gap []
  | cons {offset gap t rest tokens} : (∀ c ∈ gap, isBlank c) →
      t.literal.toList ≠ [] → (∀ c ∈ t.literal.toList, isBlank c = false) →
      t.offset = offset + byteLength gap → Tiles t.stop rest tokens →
      Tiles offset (gap ++ (t.literal.toList ++ rest)) (t :: tokens)

theorem isDigit_or_point_of_mem_takeMantissa {cs : List Char} {d : Char}
    (h : d ∈ (takeMantissa cs).1) : d.isDigit ∨ d = '.' := by
  unfold takeMantissa at h
  split at h
  · rcases List.mem_append.mp h with h | h
    · exact .inl (List.mem_takeWhile_imp h)
    · rcases List.mem_cons.mp h with rfl | h
      · exact .inr rfl
      · exact .inl (List.mem_takeWhile_imp h)
  · exact .inl (List.mem_takeWhile_imp h)

theorem isSign_of_mem_takeSign {cs : List Char} {d : Char} (h : d ∈ (takeSign cs).1) :
    d = '+' ∨ d = '-' := by
  unfold takeSign at h
  split at h
  · exact .inl (List.mem_singleton.mp h)
  · exact .inr (List.mem_singleton.mp h)
  · cases h

theorem not_isBlank_of_mem_takeExponent {cs : List Char} {d : Char}
    (h : d ∈ (takeExponent cs).1) : isBlank d = false := by
  rcases cs with _ | ⟨c, cs⟩
  · cases h
  rw [takeExponent] at h
  simp only at h
  split at h
  · rename_i hmark
    split at h
    · cases h
    · rcases List.mem_cons.mp h with rfl | h
      · rcases hmark with rfl | rfl <;> decide
      · rcases List.mem_append.mp h with h | h
        · rcases isSign_of_mem_takeSign h with rfl | rfl <;> decide
        · exact isBlank_of_inName (by simp [inName, List.mem_takeWhile_imp h])
  · cases h

theorem not_isBlank_of_mem_takeNumber {cs : List Char} {d : Char}
    (h : d ∈ (takeNumber cs).1) : isBlank d = false := by
  have hmantissa (h : d ∈ (takeMantissa cs).1) : isBlank d = false := by
    rcases isDigit_or_point_of_mem_takeMantissa h with h | rfl
    · exact isBlank_of_inName (by simp [inName, h])
    · decide
  unfold takeNumber at h
  simp only at h
  split at h
  · rcases List.mem_append.mp h with h | h
    · exact hmantissa h
    · exact not_isBlank_of_mem_takeExponent h
  · exact hmantissa h

theorem not_isBlank_of_mem_lexeme {c : Char} {cs : List Char} (hc : isBlank c = false) {d : Char}
    (h : d ∈ (lexeme c cs).2.1) : isBlank d = false := by
  rcases lexeme_cases c cs with ⟨kind, -, hl⟩ | ⟨-, hl⟩ | ⟨-, hl⟩ | hl <;> rw [hl] at h
  · exact List.mem_singleton.mp h ▸ hc
  · rcases List.mem_cons.mp h with rfl | h
    · exact hc
    · exact isBlank_of_inName (List.mem_takeWhile_imp h)
  · exact not_isBlank_of_mem_takeNumber h
  · exact List.mem_singleton.mp h ▸ hc

theorem not_isBlank_of_trimStart_cons {c : Char} {cs rest : List Char}
    (h : trimStart cs = c :: rest) : isBlank c = false := by
  have := List.head?_dropWhile_not isBlank cs
  rw [show cs.dropWhile isBlank = c :: rest from h] at this
  simpa using this

theorem scan_append {cs : List Char} (h : trimStart cs ≠ []) (offset : Nat) :
    cs = cs.takeWhile isBlank ++
      ((scan offset cs).1.literal.toList ++ (scan offset cs).2) := by
  obtain ⟨c, rest, hc⟩ := List.exists_cons_of_ne_nil h
  rw [scan_of_trimStart_cons hc, String.toList_ofList, lexeme_append, ← hc]
  exact List.takeWhile_append_dropWhile.symm

/-- What is taken from the front of a text reaches to the end of its first token. -/
theorem exists_scan_append (offset : Nat) (cs : List Char) :
    ∃ taken, cs = taken ++ (scan offset cs).2 ∧
      (scan offset cs).1.stop = offset + byteLength taken := by
  have hstop := scan_stop_add offset cs
  by_cases h : trimStart cs = []
  · refine ⟨cs, ?_, ?_⟩ <;> rw [scan_of_trimStart_nil h]
    · rw [List.append_nil]
    · rfl
  · refine ⟨cs.takeWhile isBlank ++ (scan offset cs).1.literal.toList, ?_, ?_⟩
    · rw [List.append_assoc]
      exact scan_append h offset
    · have hlength := congrArg byteLength (scan_append h offset)
      simp only [Text.byteLength_append] at hlength ⊢
      omega

theorem tiles_scanAll (offset : Nat) (cs : List Char) : Tiles offset cs (scanAll offset cs) := by
  fun_induction scanAll offset cs with
  | case1 offset cs first hend =>
    exact .nil (List.dropWhile_eq_nil_iff.mp (isEnd_scan_iff.mp hend))
  | case2 offset cs first hend ih =>
    have hne : trimStart cs ≠ [] := mt isEnd_scan_iff.mpr hend
    obtain ⟨c, rest, hc⟩ := List.exists_cons_of_ne_nil hne
    have hscan := scan_of_trimStart_cons hc offset
    rw [show cs = _ from scan_append hne offset]
    refine .cons (fun d hd => List.mem_takeWhile_imp hd) ?_ ?_ ?_ ih
    · rw [hscan, String.toList_ofList]
      exact lexeme_ne_nil c rest
    · rw [hscan, String.toList_ofList]
      intro d hd
      exact not_isBlank_of_mem_lexeme (not_isBlank_of_trimStart_cons hc) hd
    · rw [hscan]

namespace Tiles

variable {offset : Nat} {cs : List Char} {tokens : List Token}

theorem length_le (h : Tiles offset cs tokens) : tokens.length ≤ byteLength cs := by
  induction h with
  | nil _ => exact Nat.zero_le _
  | cons _ hne _ _ _ ih =>
    have hpos := Text.byteLength_pos hne
    rw [Text.byteLength_append, Text.byteLength_append, List.length_cons]
    omega

theorem not_isBlank (h : Tiles offset cs tokens) {t : Token} (ht : t ∈ tokens) :
    t.literal.toList ≠ [] ∧ ∀ c ∈ t.literal.toList, isBlank c = false := by
  induction h with
  | nil _ => cases ht
  | cons _ hne hplain _ _ ih =>
    rcases List.mem_cons.mp ht with rfl | ht
    · exact ⟨hne, hplain⟩
    · exact ih ht

theorem isBlank_of_nil (h : Tiles offset cs []) : ∀ c ∈ cs, isBlank c := by
  cases h with
  | nil hgap => exact hgap

/-- A token is the piece of the text that starts at its offset; what is in front of it and what is
behind it are tiled by the tokens before it and after it. -/
theorem exists_split {ls rs : List Token} {t : Token} (h : Tiles offset cs (ls ++ t :: rs)) :
    ∃ before after, cs = before ++ (t.literal.toList ++ after) ∧
      t.offset = offset + byteLength before ∧ Tiles offset before ls ∧ Tiles t.stop after rs := by
  induction ls generalizing offset cs with
  | nil =>
    cases h with
    | @cons _ gap _ rest _ hgap _ _ hoffset hrest =>
      exact ⟨gap, rest, rfl, hoffset, .nil hgap, hrest⟩
  | cons u ls ih =>
    cases h with
    | @cons _ gap _ rest _ hgap hne hplain hoffset hrest =>
      obtain ⟨before, after, rfl, hbefore, hls, hrs⟩ := ih hrest
      refine ⟨gap ++ (u.literal.toList ++ before), after, by simp, ?_,
        .cons hgap hne hplain hoffset hls, hrs⟩
      rw [hbefore, stop, span, hoffset, Text.byteLength_append, Text.byteLength_append]
      simp only [Nat.add_assoc]

theorem exists_append (h : Tiles offset cs tokens) {t : Token} (ht : t ∈ tokens) :
    ∃ before after, cs = before ++ (t.literal.toList ++ after) ∧
      t.offset = offset + byteLength before := by
  obtain ⟨ls, rs, rfl⟩ := List.append_of_mem ht
  obtain ⟨before, after, hcs, hoffset, -, -⟩ := h.exists_split
  exact ⟨before, after, hcs, hoffset⟩

end Tiles

end Formula.Token

namespace Formula.Cursor

open Text (byteLength)
open Token (endOf ofText)

/-- The rest of the text starts where the current token stops, and past the last token there is
the end. -/
structure AtPlace (source : Text.Source) (cursor : Cursor) : Prop where
  splits : ∃ before, source.text.toList = before ++ cursor.rest ∧
    byteLength before = cursor.current.stop
  ends : cursor.current.isEnd → cursor.current = endOf source ∧ cursor.rest = []

theorem atPlace_scan {source : Text.Source} {before cs : List Char}
    (h : source.text.toList = before ++ cs) :
    AtPlace source ⟨source, (Token.scan (byteLength before) cs).1,
      (Token.scan (byteLength before) cs).2⟩ := by
  constructor
  · obtain ⟨taken, htaken, hstop⟩ := Token.exists_scan_append (byteLength before) cs
    refine ⟨before ++ taken, ?_, ?_⟩
    · rw [h, List.append_assoc, ← htaken]
    · rw [Text.byteLength_append, hstop]
  · intro hend
    rw [Token.scan_of_trimStart_nil (Token.isEnd_scan_iff.mp hend), ← Text.byteLength_append, ← h]
    exact ⟨rfl, rfl⟩

theorem atPlace_start (source : Text.Source) : AtPlace source (start source) :=
  atPlace_scan (List.nil_append _).symm

theorem AtPlace.step {source : Text.Source} {cursor : Cursor} (h : AtPlace source cursor) :
    AtPlace source cursor.advance := by
  obtain ⟨before, hsplit, hstop⟩ := h.splits
  have hplace := atPlace_scan hsplit
  rw [hstop] at hplace
  exact ⟨hplace.splits, hplace.ends⟩

theorem atPlace_iterate (source : Text.Source) (k : Nat) :
    AtPlace source (advance^[k] (start source)) := by
  induction k with
  | zero => exact atPlace_start source
  | succ k ih =>
    rw [Function.iterate_succ_apply']
    exact ih.step

theorem AtPlace.isEnd_advance {source : Text.Source} {cursor : Cursor}
    (h : AtPlace source cursor) (hend : cursor.current.isEnd) : cursor.advance.current.isEnd := by
  have hrest := (h.ends hend).2
  exact Token.isEnd_scan_iff.mpr (by rw [hrest]; rfl)

theorem AtPlace.current_iterate {source : Text.Source} {cursor : Cursor}
    (h : AtPlace source cursor) (k : Nat) :
    (advance^[k] cursor).current = cursor.toList.getD k (endOf source) := by
  induction k generalizing cursor with
  | zero =>
    rw [toList]
    split
    · exact (h.ends ‹_›).1
    · rfl
  | succ k ih =>
    rw [Function.iterate_succ_apply, ih h.step, toList.eq_def cursor]
    split
    · rename_i hend
      rw [toList, if_pos (h.isEnd_advance hend), List.getD_nil, List.getD_nil]
    · rw [List.getD_cons_succ]

theorem current_iterate_start (source : Text.Source) (k : Nat) :
    (advance^[k] (start source)).current = (ofText source.text).getD k (endOf source) := by
  rw [(atPlace_start source).current_iterate, toList_start]

end Formula.Cursor
