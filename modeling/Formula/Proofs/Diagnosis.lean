import Formula.Proofs.Offsets
import Formula.Proofs.TrackState

/-! What a syntax error says, read off the tokens alone. Let the offending token be the first one
with which the tokens begin no sum, or the end of the text if all of them begin one. The last tokens
before it tell whether an operand was due there, the parentheses before it tell what was open, and
both together determine the error. -/

namespace Formula

open Reader Track

open Token (withEnd endOf)

/-- The first `k` tokens begin a sum, and with the next one they begin none. -/
structure FirstOffence (ts : List Token) (k : Nat) : Prop where
  le : k ≤ ts.length
  viable : ∀ j ≤ k, Viable (ts.take j)
  stuck : k < ts.length → ¬ Viable (ts.take (k + 1))

theorem FirstOffence.unique {ts : List Token} {j k : Nat} (hj : FirstOffence ts j)
    (hk : FirstOffence ts k) : j = k := by
  have le {j k : Nat} (hj : FirstOffence ts j) (hk : FirstOffence ts k) : k ≤ j := by
    by_contra hlt
    have hlt := Nat.lt_of_not_le hlt
    exact hj.stuck (Nat.lt_of_lt_of_le hlt hk.le) (hk.viable _ hlt)
  exact Nat.le_antisymm (le hk hj) (le hj hk)

/-- The error that belongs to the tokens `ts` with the offending token `e` behind them. -/
inductive Diagnosis (source : Text.Source) (ts : List Token) (e : Token) : SyntaxError → Prop
  | unexpectedEnd : WantsOperand ts → e.kind = .endOfInput →
      Diagnosis source ts e ⟨source, e.span, .unexpectedEnd⟩
  | emptyArguments {n o} : OpensCall ts n o → e.kind = .rightParen →
      Diagnosis source ts e
        ⟨source, ⟨o.offset, e.stop - o.offset⟩, .emptyArguments n.literal⟩
  | unexpectedToken : WantsOperand ts → e.kind ≠ .endOfInput →
      (∀ n o, OpensCall ts n o → e.kind ≠ .rightParen) →
      Diagnosis source ts e ⟨source, e.span, .unexpectedToken e.literal⟩
  | missingClose {o after} : EndsOperand ts → Unclosed ts o after →
      (∀ o' after', ¬ Unclosed after o' after') →
      Diagnosis source ts e ⟨source, e.span, .missingClose o.span⟩
  | trailingInput : EndsOperand ts → (∀ o after, ¬ Unclosed ts o after) →
      Diagnosis source ts e ⟨source, e.span, .trailingInput e.literal⟩

/-- The tokens and the offending one leave no choice. -/
theorem Diagnosis.unique {source : Text.Source} {ts : List Token} {e : Token}
    {error error' : SyntaxError} (h : Diagnosis source ts e error)
    (h' : Diagnosis source ts e error') : error = error' := by
  cases h with
  | unexpectedEnd hw he =>
    cases h' with
    | unexpectedEnd => rfl
    | emptyArguments _ he' => simp [he] at he'
    | unexpectedToken _ he' => exact absurd he he'
    | missingClose hw' => exact absurd hw hw'.not_wantsOperand
    | trailingInput hw' => exact absurd hw hw'.not_wantsOperand
  | emptyArguments hc he =>
    cases h' with
    | unexpectedEnd _ he' => simp [he] at he'
    | emptyArguments hc' =>
      obtain ⟨rfl, rfl⟩ := hc.unique hc'
      rfl
    | unexpectedToken _ _ hno => exact absurd he (hno _ _ hc)
    | missingClose hw' => exact absurd hc.wantsOperand hw'.not_wantsOperand
    | trailingInput hw' => exact absurd hc.wantsOperand hw'.not_wantsOperand
  | unexpectedToken hw he hno =>
    cases h' with
    | unexpectedEnd _ he' => exact absurd he' he
    | emptyArguments hc he' => exact absurd he' (hno _ _ hc)
    | unexpectedToken => rfl
    | missingClose hw' => exact absurd hw hw'.not_wantsOperand
    | trailingInput hw' => exact absurd hw hw'.not_wantsOperand
  | missingClose hw ho hin =>
    cases h' with
    | unexpectedEnd hw' | unexpectedToken hw' => exact absurd hw' hw.not_wantsOperand
    | emptyArguments hc => exact absurd hc.wantsOperand hw.not_wantsOperand
    | missingClose _ ho' hin' =>
      obtain rfl := ho.unique hin ho' hin'
      rfl
    | trailingInput _ hno => exact absurd ho (hno _ _)
  | trailingInput hw hno =>
    cases h' with
    | unexpectedEnd hw' | unexpectedToken hw' => exact absurd hw' hw.not_wantsOperand
    | emptyArguments hc => exact absurd hc.wantsOperand hw.not_wantsOperand
    | missingClose _ ho => exact absurd ho (hno _ _)
    | trailingInput => rfl

/-- The pass cannot go on behind the tokens `taken` with the tokens `rest`. -/
structure Track.Stuck (s : Track) (taken rest : List Token) : Prop where
  taken : steps start taken = some s
  next : ∀ t ∈ rest.head?, s.step t = none
  unfinished : rest = [] → s.accepts = false

theorem Track.Stuck.firstOffence {s : Track} {taken rest : List Token} (h : s.Stuck taken rest) :
    FirstOffence (taken ++ rest) taken.length where
  le := by simp
  viable j hj := by
    have hv : Viable taken := viable_iff_steps.mpr ⟨s, h.taken⟩
    rw [← List.take_append_drop j taken] at hv
    rw [List.take_append_of_le_length hj]
    exact hv.of_append
  stuck hlt := by
    cases rest with
    | nil => simp at hlt
    | cons t rest =>
      rw [List.take_append, List.take_of_length_le (Nat.le_succ _), Nat.add_sub_cancel_left]
      exact not_viable_of_stuck h.taken (h.next t rfl)

theorem place_eq_span (source : Text.Source) (ts : List Token) :
    SyntaxError.place source ts = (ts.headD (endOf source)).span := by
  cases ts <;> rfl

theorem Track.Stuck.diagnosis {source : Text.Source} {s : Track} {taken rest : List Token}
    (h : s.Stuck taken rest) (hrest : ∀ t ∈ rest, t.kind ≠ .endOfInput) :
    Diagnosis source taken (rest.headD (endOf source))
      (SyntaxError.ofFailure source ⟨s.expected rest, rest⟩) := by
  have hp := phaseOf_of_steps h.taken
  have ho := opened_of_steps h.taken
  obtain ⟨phase, frames⟩ := s
  cases phase with
  | operand =>
    cases rest with
    | nil => exact .unexpectedEnd hp.1 rfl
    | cons t rest =>
      exact .unexpectedToken hp.1 (hrest t (by simp)) fun n o hc => absurd hc (hp.2 n o)
  | argument n o =>
    have hc : OpensCall taken n o := hp
    cases rest with
    | nil => exact .unexpectedEnd hc.wantsOperand rfl
    | cons t rest =>
      by_cases hk : t.kind = .rightParen
      · have hx : expected ⟨.argument n o, frames⟩ (t :: rest) = .argument n o := by
          simp [expected, startsWithClose, hk]
        rw [hx]
        exact .emptyArguments hc hk
      · have hx : expected ⟨.argument n o, frames⟩ (t :: rest) = .operand := by
          simp [expected, startsWithClose, hk]
        rw [hx]
        exact .unexpectedToken hc.wantsOperand (hrest t (by simp)) fun _ _ _ => hk
  | operator name? =>
    have he : EndsOperand taken := by
      cases name? with
      | none => exact hp.1
      | some n => exact ⟨n, hp.1, .inr (.inl hp.2)⟩
    cases frames with
    | nil =>
      cases rest with
      | nil => exact absurd (h.unfinished rfl) (by simp [accepts])
      | cons t rest => exact .trailingInput he fun o after => ho.not_unclosed
    | cons frame frames =>
      obtain ⟨after, hun, hin⟩ := ho.exists_unclosed
      simp only [expected, SyntaxError.ofFailure, place_eq_span]
      exact .missingClose he hun hin

theorem parseSource_eq_error_iff {source : Text.Source} {error : SyntaxError} :
    parseSource source = .error error ↔ ∃ failure,
      Reader.parse (Token.ofText source.text) = .error failure ∧
        SyntaxError.ofFailure source failure = error := by
  rw [parseSource]
  cases Reader.parse (Token.ofText source.text) <;> simp [Except.mapError]

theorem exists_stuck_of_parse {source : Text.Source} {failure : Failure}
    (hp : Reader.parse (Token.ofText source.text) = .error failure) :
    ∃ s taken, Token.ofText source.text = taken ++ failure.rest ∧ Stuck s taken failure.rest ∧
      Diagnosis source taken (failure.rest.headD (endOf source))
        (.ofFailure source failure) := by
  obtain ⟨taken, s, hts, hs, hexp, hnext⟩ := parse_eq_error hp
  have hstuck : Stuck s taken failure.rest := by
    refine ⟨hs, ?_, ?_⟩
    · intro t ht
      obtain ⟨rest, hrest⟩ := List.head?_eq_some_iff.mp ht
      simpa [hrest] using hnext
    · intro hnil
      simpa [hnil] using hnext
  refine ⟨s, taken, hts, hstuck, ?_⟩
  have hmem : ∀ t ∈ failure.rest, t ∈ Token.ofText source.text := by
    intro t ht
    rw [hts]
    exact List.mem_append_right _ ht
  have hd : Diagnosis source taken _ (.ofFailure source ⟨s.expected failure.rest, failure.rest⟩) :=
    hstuck.diagnosis fun t ht => Token.not_isEnd_of_mem_scanAll (hmem t ht)
  rwa [← hexp] at hd

theorem exists_stuck {source : Text.Source} {error : SyntaxError}
    (h : parseSource source = .error error) :
    ∃ s taken rest, Token.ofText source.text = taken ++ rest ∧ Stuck s taken rest ∧
      Diagnosis source taken (rest.headD (endOf source)) error := by
  obtain ⟨failure, hp, rfl⟩ := parseSource_eq_error_iff.mp h
  obtain ⟨s, taken, h⟩ := exists_stuck_of_parse hp
  exact ⟨s, taken, failure.rest, h⟩

/-- The tokens before the offending one and the offending one itself determine the error: every
text that is refused has one first offence, one diagnosis belongs to it, and that is the error. -/
theorem parseSource_error_diagnosis {source : Text.Source} {error : SyntaxError}
    (h : parseSource source = .error error) :
    ∃ k e, (∀ j, FirstOffence (Token.ofText source.text) j ↔ j = k) ∧
      (withEnd source)[k]? = some e ∧
      ∀ error', Diagnosis source ((Token.ofText source.text).take k) e error' ↔
        error' = error := by
  obtain ⟨s, taken, rest, hts, hstuck, hd⟩ := exists_stuck h
  have hfirst := hstuck.firstOffence
  rw [← hts] at hfirst
  refine ⟨taken.length, rest.headD (endOf source), ?_, Token.withEnd_getElem? hts, ?_⟩
  · intro j
    constructor
    · exact fun hj => hj.unique hfirst
    · rintro rfl
      exact hfirst
  · intro error'
    rw [hts, List.take_left]
    constructor
    · exact fun hd' => hd'.unique hd
    · rintro rfl
      exact hd

theorem parseSource_error_diagnosis_missingClose :
    let source : Text.Source := ⟨none, "f((x) y"⟩
    let error : SyntaxError := ⟨source, ⟨6, 1⟩, .missingClose ⟨1, 1⟩⟩
    parseSource source = .error error ∧
      ∃ k e, (∀ j, FirstOffence (Token.ofText source.text) j ↔ j = k) ∧
        (withEnd source)[k]? = some e ∧
        ∀ error', Diagnosis source ((Token.ofText source.text).take k) e error' ↔
          error' = error := by
  intro source error
  have hts : Token.ofText "f((x) y" = [⟨.name, "f", 0⟩, ⟨.leftParen, "(", 1⟩,
      ⟨.leftParen, "(", 2⟩, ⟨.name, "x", 3⟩, ⟨.rightParen, ")", 4⟩, ⟨.name, "y", 6⟩] := by
    decide +kernel
  have hp : Reader.parse (Token.ofText source.text) =
      .error ⟨.close ⟨.leftParen, "(", 1⟩, [⟨.name, "y", 6⟩]⟩ := by
    rw [hts]
    exact run_start_eq_error.mp rfl
  have h : parseSource source = .error error := parseSource_eq_error_iff.mpr ⟨_, hp, rfl⟩
  exact ⟨h, parseSource_error_diagnosis h⟩

end Formula
