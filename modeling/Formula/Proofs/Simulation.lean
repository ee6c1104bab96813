import Formula.Evaluation
import Formula.Proofs.Postorder

/-! Two evaluations side by side. If two contexts answer the questions of a tree alike, in states
that are related and lead to related states again, then they give the tree the same value or the
same error, and leave related states behind. -/

namespace Formula

namespace Answer

variable {σ τ α β : Type}

/-- What a question leads to in a state. -/
def outcome (x : Answer σ α) (state : σ) : Except NameError α × σ :=
  match x state with
  | .ok value state => (.ok value, state)
  | .error error state => (.error error, state)

theorem outcome_pure (a : α) (state : σ) : outcome (pure a) state = (.ok a, state) := rfl

theorem outcome_bind (x : Answer σ α) (f : α → Answer σ β) (state : σ) :
    outcome (x >>= f) state = match outcome x state with
      | (.ok a, state) => outcome (f a) state
      | (.error error, state) => (.error error, state) := by
  simp only [outcome, bind, EStateM.bind]
  cases x state <;> rfl

theorem ext {x y : Answer σ α} (h : ∀ state, outcome x state = outcome y state) : x = y := by
  funext state
  have h := h state
  unfold outcome at h
  split at h <;> split at h <;> simp_all

def Gives (x : Answer σ α) (a : α) : Prop := ∃ state, (outcome x state).1 = .ok a

theorem Gives.of_bind {x : Answer σ α} {f : α → Answer σ β} {b : β} (h : Gives (x >>= f) b) :
    ∃ a, Gives x a ∧ Gives (f a) b := by
  obtain ⟨state, h⟩ := h
  rw [outcome_bind] at h
  rcases hx : outcome x state with ⟨⟨error⟩ | ⟨a⟩, next⟩
  · rw [hx] at h
    cases h
  · rw [hx] at h
    exact ⟨a, ⟨state, by rw [hx]⟩, next, h⟩

/-- Asked in related states, both questions have the same answer and lead to related states. -/
def Sim (R : σ → τ → Prop) (x : Answer σ α) (y : Answer τ α) : Prop :=
  ∀ s t, R s t → (outcome x s).1 = (outcome y t).1 ∧ R (outcome x s).2 (outcome y t).2

variable {R : σ → τ → Prop}

theorem Sim.pure (a : α) : Sim R (pure a) (pure a) := fun _ _ h => ⟨rfl, h⟩

theorem Sim.bind {x : Answer σ α} {y : Answer τ α} {f : α → Answer σ β} {g : α → Answer τ β}
    (hx : Sim R x y) (hf : ∀ a, Gives x a → Sim R (f a) (g a)) : Sim R (x >>= f) (y >>= g) := by
  intro s t h
  obtain ⟨hanswer, hstate⟩ := hx s t h
  have hgives : ∀ a, (outcome x s).1 = .ok a → Gives x a := fun a ha => ⟨s, ha⟩
  rw [outcome_bind, outcome_bind]
  rcases hxs : outcome x s with ⟨answer, s'⟩
  rcases hyt : outcome y t with ⟨answer', t'⟩
  rw [hxs, hyt] at hanswer hstate
  rw [hxs] at hgives
  obtain rfl : answer = answer' := hanswer
  cases answer with
  | error error => exact ⟨rfl, hstate⟩
  | ok a => exact hf a (hgives a rfl) s' t' hstate

end Answer

namespace Node

open Answer (outcome Sim Gives)

variable {σ τ : Type} {R : σ → τ → Prop} {c : Context σ} {d : Context τ}

theorem length_of_gives_evaluateAll {nodes : List Node} {values : List Float}
    (h : Gives (evaluateAll c nodes) values) : values.length = nodes.length := by
  induction nodes generalizing values with
  | nil =>
    obtain ⟨_, h⟩ := h
    cases h
    rfl
  | cons t nodes ih =>
    obtain ⟨value, -, h⟩ := h.of_bind
    obtain ⟨rest, hrest, h⟩ := h.of_bind
    obtain ⟨_, h⟩ := h
    cases h
    rw [List.length_cons, List.length_cons, ih hrest]

theorem sim_evaluateAll (f : Node → Node) {nodes : List Node}
    (h : ∀ t ∈ nodes, Sim R (t.evaluate c) ((f t).evaluate d)) :
    Sim R (evaluateAll c nodes) (evaluateAll d (nodes.map f)) := by
  induction nodes with
  | nil => exact .pure []
  | cons t nodes ih =>
    apply (h t List.mem_cons_self).bind
    intro value _
    apply (ih fun u hu => h u (List.mem_cons_of_mem t hu)).bind
    intro values _
    exact .pure (value :: values)

theorem sim_evaluate (t : Node) (h : ∀ name arguments, (name, arguments.length) ∈ t.questions →
      Sim R (c.resolve name arguments) (d.resolve name arguments)) :
    Sim R (t.evaluate c) (t.evaluate d) := by
  induction t using Node.induct with
  | literal value => exact .pure value
  | var name => exact h name [] (by simp)
  | call name arguments ih =>
    have hall : ∀ t ∈ arguments, Sim R (t.evaluate c) (t.evaluate d) := by
      intro t ht
      apply ih t ht
      intro other values hq
      apply h other values
      rw [questions_call]
      exact List.mem_append_left _ (List.mem_flatMap.mpr ⟨t, ht, hq⟩)
    have hall := sim_evaluateAll id hall
    rw [List.map_id] at hall
    apply hall.bind
    intro values hvalues
    apply h
    simp [length_of_gives_evaluateAll hvalues]
  | unary op operand ih =>
    apply (ih (by simpa using h)).bind
    intro x _
    exact .pure (op.apply x)
  | binary op lhs rhs ihl ihr =>
    apply (ihl fun name values hq => h name values (by simp [hq])).bind
    intro x _
    apply (ihr fun name values hq => h name values (by simp [hq])).bind
    intro y _
    exact .pure (op.apply x y)
  | ternary op first second third ih₁ ih₂ ih₃ =>
    apply (ih₁ fun name values hq => h name values (by simp [hq])).bind
    intro x _
    apply (ih₂ fun name values hq => h name values (by simp [hq])).bind
    intro y _
    apply (ih₃ fun name values hq => h name values (by simp [hq])).bind
    intro z _
    exact .pure (op.apply x y z)

theorem keeps_evaluate {I : σ → Prop}
    (h : ∀ name arguments state, I state → I (outcome (c.resolve name arguments) state).2)
    (t : Node) {state : σ} (hstate : I state) : I (outcome (t.evaluate c) state).2 := by
  have hsim : Sim (fun s s' => s = s' ∧ I s) (t.evaluate c) (t.evaluate c) := by
    apply t.sim_evaluate
    rintro name arguments - s _ ⟨rfl, hs⟩
    exact ⟨rfl, rfl, h name arguments s hs⟩
  exact (hsim state state ⟨rfl, hstate⟩).2.2

end Node

end Formula
