import Formula.Proofs.Predictable
import Formula.Proofs.Replay

/-! Who is to blame for a tree without a value. The error is about the first of its names, in
postorder, that the context refuses with so many arguments; it gives that name and that number, and
where it asks for another number of arguments, the name has a value with as many as it asks for. -/

namespace Formula

open Answer (outcome)

variable {σ : Type}

/-- The cascades of this library, with or without placeholders, tell by the name and the number of
arguments what has a value. -/
theorem Layer.predictable_of_placeholder {layer : Layer σ}
    (h : ∀ c ∈ layer.leaves, c.Definite ∨ c = .placeholder) : layer.context.Predictable := by
  refine (layer.predictable fun c hc => ?_).2
  rcases h c hc with hdefinite | rfl
  · exact ⟨hdefinite.knowsByName, hdefinite.predictable⟩
  · exact ⟨Context.knowsByName_stateless _ _, Context.predictable_placeholder⟩

/-- A tree without a value has a first name that the context refuses, with an error that explains
why. All names before it have values, and were asked for them in order. -/
theorem Layer.evaluate_error_explains {layer : Layer σ}
    (h : ∀ c ∈ layer.leaves, c.Definite ∨ c = .placeholder) {t : Node} {state final : σ}
    {error : NameError}
    (herror : outcome (t.evaluate layer.context) state = (.error error, final)) :
    ∃ answers name arguments after,
      outcome (t.evaluate layer.context.recorded) (state, []) =
        (.error error, final, answers ++ [⟨name, arguments, .error error⟩]) ∧
      t.questions = answers.map Resolution.question ++ (name, arguments.length) :: after ∧
      (∀ r ∈ answers, r.Succeeds ∧ layer.context.Takes r.name r.arguments.length) ∧
      layer.context.Refuses name arguments.length error ∧
      error.name = name ∧ layer.context.Explains name arguments.length error := by
  have hpredictable := Layer.predictable_of_placeholder h
  obtain ⟨answers, name, arguments, after, hrecord, hasked, hanswers, hreplay⟩ :=
    Node.exists_failure herror
  have htakes : ∀ r ∈ answers, layer.context.Takes r.name r.arguments.length := by
    intro r hr
    obtain ⟨value, hvalue⟩ := hanswers r hr
    obtain ⟨_, hgiven⟩ := hreplay.exists_of_mem (List.mem_append_left _ hr)
    exact (hpredictable _ _).takes (hgiven.trans hvalue)
  obtain ⟨_, hgiven⟩ := hreplay.exists_of_mem (List.mem_append_right _ List.mem_cons_self)
  obtain ⟨hrefuses, hexplains⟩ := (hpredictable name arguments.length).refuses hgiven
  exact ⟨answers, name, arguments, after, hrecord, hasked,
    fun r hr => ⟨hanswers r hr, htakes r hr⟩, hrefuses, hexplains.name_eq, hexplains⟩

def Layer.mixed : Layer Float :=
  .cascade [.bindings (.ofList [("x", 1.5)]),
    .shared (.cascade [.host (.ofList [.field "heat" fun heat => (heat, heat + 1)]), .standard]),
    .placeholder]

def Node.misused : Node :=
  .binary .add (.var "heat") (.binary .add (.call "sin" [.var "x", .literal 2]) (.var "y"))

theorem Layer.evaluate_error_explains_mixed :
    (∀ c ∈ Layer.mixed.leaves, c.Definite ∨ c = .placeholder) ∧
    outcome (Node.misused.evaluate Layer.mixed.context) 20 =
      (.error (.arityMismatch "sin" 1 2), 20 + 1) ∧
    Layer.mixed.context.Refuses "sin" 2 (.arityMismatch "sin" 1 2) ∧
    Layer.mixed.context.Takes "sin" 1 := by
  have hleaves : ∀ c ∈ Layer.mixed.leaves, c.Definite ∨ c = .placeholder :=
    List.forall_mem_cons.mpr ⟨.inl (.bindings _), List.forall_mem_cons.mpr ⟨.inl (.host _),
      List.forall_mem_cons.mpr ⟨.inl .standard, List.forall_mem_singleton.mpr (.inr rfl)⟩⟩⟩
  have herror : outcome (Node.misused.evaluate Layer.mixed.context) 20 =
      (.error (.arityMismatch "sin" 1 2), 20 + 1) := rfl
  obtain ⟨_, name, arguments, _, -, -, -, hrefuses, rfl, hexplains⟩ :=
    Layer.evaluate_error_explains hleaves herror
  generalize arguments.length = count at hrefuses hexplains
  cases hexplains with
  | arityMismatch _ htakes => exact ⟨hleaves, herror, hrefuses, htakes⟩

end Formula
