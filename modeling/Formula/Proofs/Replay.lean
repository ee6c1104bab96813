import Formula.Proofs.Machine

/-! What is recorded while a tree is evaluated can be asked again, question by question: the context
gives the same answers and comes to the same state. A tree without a value leaves the record of the
questions that had answers, and after them of the one that had none. -/

namespace Formula

open Answer (outcome)
open Machine (Trail proceed)

variable {σ : Type} {c : Context σ} {first last : σ} {answers : List Resolution}

/-- Asked in turn from the state `first` on, the context has these answers and comes to the state
`last`. -/
inductive Replay (c : Context σ) (first : σ) : List Resolution → σ → Prop
  | nil : Replay c first [] first
  | snoc {answers state r last} : Replay c first answers state →
      outcome (c.resolve r.name r.arguments) state = (r.answer, last) →
      Replay c first (answers ++ [r]) last

namespace Replay

theorem of_concat {r : Resolution} (h : Replay c first (answers ++ [r]) last) :
    ∃ state, Replay c first answers state ∧
      outcome (c.resolve r.name r.arguments) state = (r.answer, last) := by
  generalize hall : answers ++ [r] = all at h
  cases h with
  | nil => exact absurd hall (by simp)
  | snoc hbefore hlast =>
    obtain ⟨rfl, ⟨⟩⟩ := List.append_inj' hall rfl
    exact ⟨_, hbefore, hlast⟩

theorem exists_of_mem (h : Replay c first answers last) {r : Resolution} (hr : r ∈ answers) :
    ∃ state, (outcome (c.resolve r.name r.arguments) state).1 = r.answer := by
  induction h with
  | nil => cases hr
  | snoc _ hlast ih =>
    rcases List.mem_append.mp hr with hr | hr
    · exact ih hr
    · obtain rfl := List.mem_singleton.mp hr
      exact ⟨_, congrArg Prod.fst hlast⟩

end Replay

theorem Context.replay_recorded (name : String) (arguments : List Float)
    (state : σ × List Resolution) (h : Replay c first state.2 state.1) :
    Replay c first (outcome (c.recorded.resolve name arguments) state).2.2
      (outcome (c.recorded.resolve name arguments) state).2.1 := by
  rw [outcome_recording]
  exact .snoc h rfl

namespace Node

variable {t : Node}

theorem replay_evaluate {result : Except NameError Float}
    (h : outcome (t.evaluate c.recorded) (first, []) = (result, last, answers)) :
    Replay c first answers last := by
  have hreplay : Replay c first (outcome (t.evaluate c.recorded) (first, [])).2.2
      (outcome (t.evaluate c.recorded) (first, [])).2.1 :=
    t.keeps_evaluate (I := fun state : σ × List Resolution => Replay c first state.2 state.1)
      Context.replay_recorded .nil
  rwa [h] at hreplay

/-- The questions of a tree are asked in order, up to the first one without an answer. -/
theorem trail_evaluate (c : Context σ) (t : Node) (state : σ) : Trail [] t.questions
    (proceed (fun value s => .done ⟨[value], s.1, s.2⟩)
      (outcome (t.evaluate c.recorded) (state, []))) := by
  have htrail := Machine.trail_run c t.code ⟨[], state, []⟩
  rwa [show Machine.run c t.code _ = _ from Machine.runs c t [] [] (state, [])] at htrail

theorem exists_success {state final : σ} {value : Float}
    (h : outcome (t.evaluate c) state = (.ok value, final)) :
    ∃ answers, t.questions = answers.map Resolution.question ∧ (∀ r ∈ answers, r.Succeeds) ∧
      Replay c state answers final := by
  have htrail := t.trail_evaluate c state
  rcases hrecord : outcome (t.evaluate c.recorded) (state, []) with ⟨result, final', answers⟩
  rw [outcome_evaluate_of_recording hrecord] at h
  obtain ⟨rfl, rfl⟩ := Prod.mk.inj h
  rw [hrecord] at htrail
  obtain ⟨hasked, hanswers⟩ := htrail.of_done
  exact ⟨answers, hasked.symm, hanswers, replay_evaluate hrecord⟩

theorem exists_failure {state final : σ} {error : NameError}
    (h : outcome (t.evaluate c) state = (.error error, final)) :
    ∃ answers name arguments after,
      outcome (t.evaluate c.recorded) (state, []) =
        (.error error, final, answers ++ [⟨name, arguments, .error error⟩]) ∧
      t.questions = answers.map Resolution.question ++ (name, arguments.length) :: after ∧
      (∀ r ∈ answers, r.Succeeds) ∧
      Replay c state (answers ++ [⟨name, arguments, .error error⟩]) final := by
  have htrail := t.trail_evaluate c state
  rcases hrecord : outcome (t.evaluate c.recorded) (state, []) with ⟨result, final', answers⟩
  rw [outcome_evaluate_of_recording hrecord] at h
  obtain ⟨rfl, rfl⟩ := Prod.mk.inj h
  rw [hrecord] at htrail
  obtain ⟨⟨after, hasked⟩, before, ⟨name, arguments, _⟩, rfl, rfl, hbefore⟩ := htrail.of_failed
  refine ⟨before, name, arguments, after, rfl, ?_, hbefore, replay_evaluate hrecord⟩
  rw [← hasked, List.map_append, List.append_assoc]
  rfl

end Node

end Formula
