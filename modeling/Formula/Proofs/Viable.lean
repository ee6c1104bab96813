import Formula.Proofs.Track

/-! Beginnings of sums. Whatever the pass from left to right has taken can be completed: an
operand, if one is due, and then a parenthesis for each one that is open. So the tokens before the
place of a failure begin a sum, and with the token at that place they begin none. -/

namespace Formula

open Reader Track

/-- The tokens begin a sum. -/
def Viable (ts : List Token) : Prop := ∃ more t, Derives .sum (ts ++ more) t

theorem run_start_eq_ok_iff {ts : List Token} :
    run start ts = .ok () ↔ ∃ t, Derives .sum ts t := by
  rw [run_start]
  simp only [← parse_eq_ok_iff]
  cases Reader.parse ts <;> simp [Except.map]

theorem run_start_eq_error {ts : List Token} {failure : Failure} :
    run start ts = .error failure ↔ Reader.parse ts = .error failure := by
  rw [run_start]
  cases Reader.parse ts <;> simp [Except.map]

theorem steps_replicate_close (name? : Option Token) (frames : List Frame) :
    ∃ last?, steps ⟨.operator name?, frames⟩
      (List.replicate frames.length ⟨.rightParen, ")", 0⟩) = some ⟨.operator last?, []⟩ := by
  induction frames generalizing name? with
  | nil => exact ⟨name?, rfl⟩
  | cons frame frames ih => exact ih none

/-- Every state of the pass can be led to the end of a sum. -/
theorem exists_completion (s : Track) : ∃ more s', steps s more = some s' ∧ s'.accepts = true := by
  have operator (name? : Option Token) (frames : List Frame) :
      ∃ more s', steps ⟨.operator name?, frames⟩ more = some s' ∧ s'.accepts = true := by
    obtain ⟨last?, h⟩ := steps_replicate_close name? frames
    exact ⟨_, _, h, rfl⟩
  obtain ⟨phase, frames⟩ := s
  obtain ⟨more, s', hs, ha⟩ := operator none frames
  cases phase with
  | operator name? => exact operator name? frames
  | operand => exact ⟨⟨.number 0, "0", 0⟩ :: more, s', hs, ha⟩
  | argument name opening => exact ⟨⟨.number 0, "0", 0⟩ :: more, s', hs, ha⟩

theorem viable_iff_steps {ts : List Token} : Viable ts ↔ ∃ s, steps start ts = some s := by
  simp only [Viable, ← run_start_eq_ok_iff, run_eq_ok_iff, steps_append]
  constructor
  · rintro ⟨more, s', h, -⟩
    obtain ⟨s, hs, -⟩ := Option.bind_eq_some_iff.mp h
    exact ⟨s, hs⟩
  · rintro ⟨s, hs⟩
    obtain ⟨more, s', h, ha⟩ := exists_completion s
    exact ⟨more, s', by rw [hs]; exact h, ha⟩

theorem Viable.of_append {ts us : List Token} (h : Viable (ts ++ us)) : Viable ts := by
  obtain ⟨more, t, h⟩ := h
  exact ⟨us ++ more, t, by rwa [← List.append_assoc]⟩

/-- A failure of the reader splits the tokens: those before its place begin a sum, and the next one
cannot follow them. At the end it is the whole that is no sum. -/
theorem parse_eq_error {ts : List Token} {failure : Failure}
    (h : Reader.parse ts = .error failure) :
    ∃ taken s, ts = taken ++ failure.rest ∧ steps start taken = some s ∧
      failure.expected = s.expected failure.rest ∧
      match failure.rest with
      | [] => s.accepts = false
      | t :: _ => s.step t = none :=
  run_eq_error (run_start_eq_error.mpr h)

theorem not_viable_of_stuck {taken : List Token} {s : Track} {t : Token}
    (hs : steps start taken = some s) (ht : s.step t = none) : ¬ Viable (taken ++ [t]) := by
  rw [viable_iff_steps, steps_append, hs]
  simp [steps, ht]

end Formula
