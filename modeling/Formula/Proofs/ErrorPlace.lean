import Formula.Proofs.Diagnosis

/-! The place of a syntax error is the first token after which nothing can make the text a sum. A
report tells the place by its span: it starts where that token does, or, for a name that is applied
to nothing, it ends where that token does. -/

namespace Formula

open Reader Track

open Token (withEnd endOf)

/-- The error points at the token with the index `k`, the end of the text being the last one. -/
def PointsAt (source : Text.Source) (error : SyntaxError) (k : Nat) : Prop :=
  ∃ t, (withEnd source)[k]? = some t ∧
    match error.cause with
    | .emptyArguments _ =>
      t.kind = .rightParen ∧ t.stop = error.span.offset + error.span.length
    | _ => t.offset = error.span.offset

theorem index_inj {β : Type} {f : Token → β} {ts : List Token} {j k : Nat} {t u : Token}
    (hn : (ts.map f).Nodup) (ht : ts[j]? = some t) (hu : ts[k]? = some u) (h : f t = f u) :
    j = k := by
  have hj : j < (ts.map f).length := by
    rw [List.length_map]
    exact (List.getElem?_eq_some_iff.mp ht).1
  refine (List.getElem?_inj hj hn).mp ?_
  rw [List.getElem?_map, List.getElem?_map, ht, hu]
  exact congrArg some h

theorem withEnd_of_ne_end {source : Text.Source} {j : Nat} {t : Token}
    (ht : (withEnd source)[j]? = some t) (hk : t.kind ≠ .endOfInput) :
    (Token.ofText source.text)[j]? = some t := by
  rw [withEnd, List.getElem?_append] at ht
  split at ht
  · exact ht
  · have hend : t = endOf source := by simpa using List.mem_of_getElem? ht
    exact absurd (congrArg Token.kind hend) hk

theorem offset_le_stop {source : Text.Source} {taken rest : List Token} {o c : Token}
    (hts : Token.ofText source.text = taken ++ c :: rest) (ho : o ∈ taken) :
    o.offset ≤ c.stop := by
  have hpair := Token.pairwise_scanAll 0 source.text.toList
  rw [← Token.ofText, hts] at hpair
  have hoc := (List.pairwise_append.mp hpair).2.2 o ho c (by simp)
  have hmem : o ∈ Token.ofText source.text ∧ c ∈ Token.ofText source.text := by
    simp [hts, ho]
  have ho' := Token.lt_size_of_mem_ofText hmem.1
  have hc' := Token.lt_size_of_mem_ofText hmem.2
  omega

theorem OpensCall.mem {ts : List Token} {n o : Token} (h : OpensCall ts n o) : o ∈ ts := by
  obtain ⟨⟨before, rfl⟩, -, -⟩ := h
  simp

theorem pointsAt_of_offset {source : Text.Source} {error : SyntaxError} {k : Nat} {e : Token}
    (he : (withEnd source)[k]? = some e) (hspan : error.span = e.span)
    (hcause : ∀ name, error.cause ≠ .emptyArguments name) (j : Nat) :
    PointsAt source error j ↔ j = k := by
  obtain ⟨_, span, cause⟩ := error
  obtain rfl : span = e.span := hspan
  cases cause with
  | emptyArguments name => exact absurd rfl (hcause name)
  | _ =>
    constructor
    · rintro ⟨t, ht, hoff⟩
      exact index_inj (Token.nodup_offsets source) ht he hoff
    · rintro rfl
      exact ⟨e, he, rfl⟩

theorem Diagnosis.pointsAt_iff {source : Text.Source} {taken rest : List Token}
    {error : SyntaxError} (hts : Token.ofText source.text = taken ++ rest)
    (h : Diagnosis source taken (rest.headD (endOf source)) error) (j : Nat) :
    PointsAt source error j ↔ j = taken.length := by
  have he := Token.withEnd_getElem? hts
  cases h with
  | unexpectedEnd | unexpectedToken | missingClose | trailingInput =>
    exact pointsAt_of_offset he rfl (by simp) j
  | @emptyArguments n o hc hk =>
    cases rest with
    | nil => cases hk
    | cons c rest =>
      have hle : o.offset ≤ c.stop := offset_le_stop hts hc.mem
      have hstop : o.offset + (c.stop - o.offset) = c.stop := Nat.add_sub_cancel' hle
      have hclose : c.kind = .rightParen := hk
      have hc := withEnd_of_ne_end he (by simp [hclose])
      constructor
      · rintro ⟨t, ht, htk, hts⟩
        have ht := withEnd_of_ne_end ht (by simp [htk])
        exact index_inj (Token.nodup_stops source) ht hc (hts.trans hstop)
      · rintro rfl
        exact ⟨c, he, hk, hstop.symm⟩

/-- The one token an error points at is the first offence: what stands before it can be continued
to a sum, what reaches up to it cannot, and if it is the end of the text the whole is no sum, but
begins one. -/
theorem parseSource_error_place {source : Text.Source} {error : SyntaxError}
    (h : parseSource source = .error error) :
    let ts := Token.ofText source.text
    ∃ k ≤ ts.length, (∀ j, PointsAt source error j ↔ j = k) ∧
      (∃ more t, Derives .sum (ts.take k ++ more) t) ∧
      (k < ts.length → ∀ more t, ¬ Derives .sum (ts.take (k + 1) ++ more) t) ∧
      (k = ts.length → ∀ t, ¬ Derives .sum ts t) := by
  intro ts
  obtain ⟨s, taken, rest, hts, hstuck, hd⟩ := exists_stuck h
  have hfirst := hstuck.firstOffence
  rw [← hts] at hfirst
  refine ⟨taken.length, hfirst.le, hd.pointsAt_iff hts, hfirst.viable _ (Nat.le_refl _), ?_, ?_⟩
  · exact fun hlt more t hsum => hfirst.stuck hlt ⟨more, t, hsum⟩
  · intro _ t hsum
    rw [parseSource_eq_ok.mpr hsum] at h
    cases h

/-- In `f(x, g())` the error points at the first of the two closing parentheses. -/
theorem parseSource_error_place_emptyArguments :
    let source : Text.Source := ⟨none, "f(x, g())"⟩
    let ts := Token.ofText source.text
    let error : SyntaxError := ⟨source, ⟨6, 2⟩, .emptyArguments "g"⟩
    parseSource source = .error error ∧ PointsAt source error 6 ∧
      ∃ k ≤ ts.length, (∀ j, PointsAt source error j ↔ j = k) ∧
        (∃ more t, Derives .sum (ts.take k ++ more) t) ∧
        (k < ts.length → ∀ more t, ¬ Derives .sum (ts.take (k + 1) ++ more) t) ∧
        (k = ts.length → ∀ t, ¬ Derives .sum ts t) := by
  intro source ts error
  have hts : ts = [⟨.name, "f", 0⟩, ⟨.leftParen, "(", 1⟩, ⟨.name, "x", 2⟩, ⟨.comma, ",", 3⟩,
      ⟨.name, "g", 5⟩, ⟨.leftParen, "(", 6⟩, ⟨.rightParen, ")", 7⟩, ⟨.rightParen, ")", 8⟩] := by
    decide +kernel
  have hp : Reader.parse ts = .error ⟨.argument ⟨.name, "g", 5⟩ ⟨.leftParen, "(", 6⟩,
      [⟨.rightParen, ")", 7⟩, ⟨.rightParen, ")", 8⟩]⟩ := by
    rw [hts]
    exact run_start_eq_error.mp rfl
  have h : parseSource source = .error error := parseSource_eq_error_iff.mpr ⟨_, hp, rfl⟩
  have hpoint : PointsAt source error 6 := by
    refine ⟨⟨.rightParen, ")", 7⟩, ?_, rfl, rfl⟩
    rw [withEnd, show Token.ofText source.text = _ from hts]
    rfl
  exact ⟨h, hpoint, parseSource_error_place h⟩

end Formula
