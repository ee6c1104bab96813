import Formula.Token.Scan

/-! Where tokens stand. Each token ends before the next one starts, none is empty, and all lie
within the text; so a token is known by its offset, and by its end as well. -/

namespace Formula.Text

theorem byteLength_pos {cs : List Char} (h : cs ≠ []) : 0 < byteLength cs := by
  cases cs with
  | nil => exact absurd rfl h
  | cons c cs =>
    rw [byteLength]
    exact Nat.add_pos_left (Char.utf8Size_pos c) _

theorem byteLength_trimStart (cs : List Char) :
    byteLength (cs.takeWhile isBlank) + byteLength (trimStart cs) = byteLength cs := by
  rw [← byteLength_append, trimStart, List.takeWhile_append_dropWhile]

end Formula.Text

namespace Formula.Token

open Text (isBlank trimStart byteLength)

theorem stop_mk (kind : Kind) (literal : List Char) (offset : Nat) :
    stop ⟨kind, String.ofList literal, offset⟩ = offset + byteLength literal := by
  rw [stop, span, String.toList_ofList]

theorem scan_of_trimStart_nil {cs : List Char} (h : trimStart cs = []) (offset : Nat) :
    scan offset cs = (⟨.endOfInput, "", offset + byteLength cs⟩, []) := by
  rw [scan, h]

theorem scan_of_trimStart_cons {c : Char} {cs rest : List Char} (h : trimStart cs = c :: rest)
    (offset : Nat) :
    scan offset cs = (⟨(lexeme c rest).1, String.ofList (lexeme c rest).2.1,
      offset + byteLength (cs.takeWhile isBlank)⟩, (lexeme c rest).2.2) := by
  rw [scan, h]

theorem scan_stop_add (offset : Nat) (cs : List Char) :
    (scan offset cs).1.stop + byteLength (scan offset cs).2 = offset + byteLength cs := by
  cases hc : trimStart cs with
  | nil => rw [scan_of_trimStart_nil hc]; rfl
  | cons c rest =>
    have hcs := Text.byteLength_trimStart cs
    have hl := congrArg byteLength (lexeme_append c rest)
    rw [hc] at hcs
    rw [Text.byteLength_append] at hl
    simp only [scan_of_trimStart_cons hc, stop_mk]
    omega

theorem le_scan_offset (offset : Nat) (cs : List Char) : offset ≤ (scan offset cs).1.offset := by
  cases hc : trimStart cs with
  | nil => rw [scan_of_trimStart_nil hc]; exact Nat.le_add_right _ _
  | cons c rest => rw [scan_of_trimStart_cons hc]; exact Nat.le_add_right _ _

theorem scan_offset_lt_stop {offset : Nat} {cs : List Char} (h : ¬ (scan offset cs).1.isEnd) :
    (scan offset cs).1.offset < (scan offset cs).1.stop := by
  cases hc : trimStart cs with
  | nil => simp [scan_of_trimStart_nil hc, isEnd] at h
  | cons c rest =>
    rw [scan_of_trimStart_cons hc, stop_mk]
    exact Nat.lt_add_of_pos_right (Text.byteLength_pos (lexeme_ne_nil c rest))

theorem bounds_of_mem_scanAll {offset : Nat} {cs : List Char} {t : Token}
    (h : t ∈ scanAll offset cs) :
    offset ≤ t.offset ∧ t.offset < t.stop ∧ t.stop ≤ offset + byteLength cs := by
  fun_induction scanAll offset cs with
  | case1 => simp at h
  | case2 offset cs first hend ih =>
    have hadd : first.1.stop + byteLength first.2 = offset + byteLength cs :=
      scan_stop_add offset cs
    have hle : offset ≤ first.1.offset := le_scan_offset offset cs
    have hlt : first.1.offset < first.1.stop := scan_offset_lt_stop hend
    rcases List.mem_cons.mp h with rfl | h
    · exact ⟨hle, hlt, by omega⟩
    · obtain ⟨h₁, h₂, h₃⟩ := ih h
      exact ⟨by omega, h₂, by omega⟩

theorem pairwise_scanAll (offset : Nat) (cs : List Char) :
    (scanAll offset cs).Pairwise fun a b => a.stop ≤ b.offset := by
  fun_induction scanAll offset cs with
  | case1 => exact .nil
  | case2 offset cs first hend ih =>
    exact .cons (fun t ht => (bounds_of_mem_scanAll ht).1) ih

theorem not_isEnd_of_mem_scanAll {offset : Nat} {cs : List Char} {t : Token}
    (h : t ∈ scanAll offset cs) : t.kind ≠ .endOfInput := by
  fun_induction scanAll offset cs with
  | case1 => simp at h
  | case2 offset cs first hend ih =>
    rcases List.mem_cons.mp h with rfl | h
    · simpa [isEnd] using hend
    · exact ih h

/-- The tokens of a text and, behind them, the token that stands for its end. -/
def withEnd (source : Text.Source) : List Token := ofText source.text ++ [endOf source]

theorem lt_size_of_mem_ofText {source : Text.Source} {t : Token} (h : t ∈ ofText source.text) :
    t.offset < t.stop ∧ t.stop ≤ source.size := by
  obtain ⟨-, hlt, hle⟩ := bounds_of_mem_scanAll h
  exact ⟨hlt, by simpa [Text.Source.size] using hle⟩

theorem withEnd_getElem? {source : Text.Source} {taken rest : List Token}
    (h : ofText source.text = taken ++ rest) :
    (withEnd source)[taken.length]? = some (rest.headD (endOf source)) := by
  rw [withEnd, h]
  cases rest <;> simp

theorem pairwise_offsets (source : Text.Source) :
    (withEnd source).Pairwise fun a b => a.offset < b.offset := by
  refine List.pairwise_append.mpr ⟨?_, List.pairwise_singleton _ _, ?_⟩
  · apply (pairwise_scanAll 0 _).imp_of_mem
    intro a b ha _ hab
    have := bounds_of_mem_scanAll ha
    omega
  · intro a ha b hb
    have := lt_size_of_mem_ofText ha
    rw [List.mem_singleton.mp hb, endOf]
    exact Nat.lt_of_lt_of_le this.1 this.2

/-- No two tokens start at the same place, and none starts at the end of the text. -/
theorem nodup_offsets (source : Text.Source) : ((withEnd source).map offset).Nodup :=
  List.pairwise_map.mpr ((pairwise_offsets source).imp Nat.ne_of_lt)

theorem nodup_stops (source : Text.Source) : ((ofText source.text).map stop).Nodup := by
  apply List.pairwise_map.mpr
  apply (pairwise_scanAll 0 _).imp_of_mem
  intro a b _ hb hab
  have := bounds_of_mem_scanAll hb
  omega

end Formula.Token
