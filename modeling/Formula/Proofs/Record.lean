import Formula.Proofs.Simulation

/-! Contexts that keep a record of what they are asked to resolve. The record is a list beside the
state; it changes no answer, and so no value of a tree. -/

namespace Formula

open Answer (outcome Sim)

variable {σ ε : Type}

/-- A question to a context and its answer. -/
structure Resolution where
  name : String
  arguments : List Float
  answer : Except NameError Float

namespace Resolution

def question (r : Resolution) : String × Nat := (r.name, r.arguments.length)

def Succeeds (r : Resolution) : Prop := ∃ value, r.answer = .ok value

end Resolution

namespace Context

/-- The same context, where an entry for each answer is added to a list beside the state. -/
def recording (entry : Resolution → ε) (context : Context σ) : Context (σ × List ε) where
  resolve name arguments := fun (state, entries) =>
    match context.resolve name arguments state with
    | .ok value state => .ok value (state, entries ++ [entry ⟨name, arguments, .ok value⟩])
    | .error error state => .error error (state, entries ++ [entry ⟨name, arguments, .error error⟩])
  knows name := fun (state, entries) =>
    match context.knows name state with
    | (known, state) => (known, (state, entries))

abbrev recorded (context : Context σ) : Context (σ × List Resolution) := context.recording id

theorem outcome_recording (entry : Resolution → ε) (context : Context σ) (name : String)
    (arguments : List Float) (state : σ) (entries : List ε) :
    outcome ((context.recording entry).resolve name arguments) (state, entries) =
      match outcome (context.resolve name arguments) state with
      | (answer, state) => (answer, state, entries ++ [entry ⟨name, arguments, answer⟩]) := by
  simp only [outcome, recording]
  cases context.resolve name arguments state <;> rfl

theorem sim_recording (entry : Resolution → ε) (context : Context σ) (name : String)
    (arguments : List Float) :
    Sim (fun s t => s.1 = t) ((context.recording entry).resolve name arguments)
      (context.resolve name arguments) := by
  rintro ⟨state, entries⟩ _ rfl
  rw [outcome_recording]
  exact ⟨rfl, rfl⟩

end Context

theorem Node.outcome_evaluate_of_recording {entry : Resolution → ε} {context : Context σ}
    {t : Node} {state final : σ} {entries entries' : List ε} {answer : Except NameError Float}
    (h : outcome (t.evaluate (context.recording entry)) (state, entries) =
      (answer, final, entries')) :
    outcome (t.evaluate context) state = (answer, final) := by
  obtain ⟨hanswer, hstate⟩ := t.sim_evaluate
    (fun name arguments _ => context.sim_recording entry name arguments) (state, entries) state rfl
  rw [h] at hanswer hstate
  exact Prod.ext hanswer.symm hstate.symm

end Formula
