import Formula.Proofs.Predictable
import Formula.Proofs.Shadowing

/-! Trees in place of variables. A tree whose value is known may stand for a variable that is bound
to this value, and the other way round, wherever the name of the variable is not that of a call:
variables hide the functions of their name. -/

namespace Formula

open Answer (outcome Sim)

variable {σ τ : Type}

namespace Node

mutual

/-- The tree with other trees in the place of variables, for the names that have one. The names of
calls stay. -/
def substitute (trees : String → Option Node) : Node → Node
  | .literal value => .literal value
  | .var name => (trees name).getD (.var name)
  | .call name arguments => .call name (substituteAll trees arguments)
  | .unary op operand => .unary op (operand.substitute trees)
  | .binary op lhs rhs => .binary op (lhs.substitute trees) (rhs.substitute trees)
  | .ternary op first second third =>
    .ternary op (first.substitute trees) (second.substitute trees) (third.substitute trees)

def substituteAll (trees : String → Option Node) : List Node → List Node
  | [] => []
  | t :: nodes => t.substitute trees :: substituteAll trees nodes

end

theorem substituteAll_eq (trees : String → Option Node) (nodes : List Node) :
    substituteAll trees nodes = nodes.map (substitute trees) := by
  induction nodes with
  | nil => rfl
  | cons t nodes ih => rw [substituteAll, ih, List.map_cons]

theorem substitute_none (t : Node) : t.substitute (fun _ => none) = t := by
  induction t using Node.induct with
  | literal value => rfl
  | var name => rfl
  | call name arguments ih =>
    rw [substitute, substituteAll_eq, List.map_congr_left ih, List.map_id']
  | unary op operand ih => rw [substitute, ih]
  | binary op lhs rhs ihl ihr => rw [substitute, ihl, ihr]
  | ternary op first second third ih₁ ih₂ ih₃ => rw [substitute, ih₁, ih₂, ih₃]

def only (name : String) (t : Node) : String → Option Node :=
  fun other => if other = name then some t else none

def Calls (t : Node) (name : String) : Prop := ∃ count, .call name count ∈ t.code

section Calls

variable {name : String}

@[simp] theorem calls_literal (value : Float) : ¬ (literal value).Calls name := by simp [Calls]

@[simp] theorem calls_var (other : String) : ¬ (var other).Calls name := by simp [Calls]

@[simp] theorem calls_call (f : String) (arguments : List Node) :
    (call f arguments).Calls name ↔ (∃ t ∈ arguments, t.Calls name) ∨ name = f := by
  constructor
  · rintro ⟨count, h⟩
    rw [code_call, List.mem_append, List.mem_flatMap, List.mem_singleton] at h
    rcases h with ⟨t, ht, h⟩ | h
    · exact .inl ⟨t, ht, count, h⟩
    · cases h
      exact .inr rfl
  · rintro (⟨t, ht, count, h⟩ | rfl)
    · refine ⟨count, ?_⟩
      rw [code_call]
      exact List.mem_append_left _ (List.mem_flatMap.mpr ⟨t, ht, h⟩)
    · exact ⟨arguments.length, by simp⟩

@[simp] theorem calls_unary (op : UnaryOp) (operand : Node) :
    (unary op operand).Calls name ↔ operand.Calls name := by simp [Calls]

@[simp] theorem calls_binary (op : BinaryOp) (lhs rhs : Node) :
    (binary op lhs rhs).Calls name ↔ lhs.Calls name ∨ rhs.Calls name := by
  simp [Calls, exists_or]

@[simp] theorem calls_ternary (op : TernaryOp) (first second third : Node) :
    (ternary op first second third).Calls name ↔
      first.Calls name ∨ second.Calls name ∨ third.Calls name := by
  simp [Calls, exists_or]

end Calls

section Substitute

variable {R : σ → τ → Prop} {c : Context σ} {d : Context τ} {trees : String → Option Node}

/-- If the trees in the place of variables have the values of the variables, then the whole tree
keeps its value. -/
theorem sim_substitute
    (hvar : ∀ name, Sim R (c.resolve name []) (((trees name).getD (.var name)).evaluate d))
    (t : Node)
    (hcall : ∀ name, t.Calls name → ∀ arguments,
      Sim R (c.resolve name arguments) (d.resolve name arguments)) :
    Sim R (t.evaluate c) ((t.substitute trees).evaluate d) := by
  induction t using Node.induct with
  | literal value => exact .pure value
  | var name => exact hvar name
  | call name arguments ih =>
    rw [substitute, substituteAll_eq]
    have hall : ∀ t ∈ arguments, Sim R (t.evaluate c) ((t.substitute trees).evaluate d) := by
      intro t ht
      exact ih t ht fun other h => hcall other ((calls_call _ _).mpr (.inl ⟨t, ht, h⟩))
    apply (sim_evaluateAll (substitute trees) hall).bind
    intro values _
    exact hcall name ((calls_call _ _).mpr (.inr rfl)) values
  | unary op operand ih =>
    apply (ih fun name h => hcall name (by simpa using h)).bind
    intro x _
    exact .pure (op.apply x)
  | binary op lhs rhs ihl ihr =>
    apply (ihl fun name h => hcall name (by simp [h])).bind
    intro x _
    apply (ihr fun name h => hcall name (by simp [h])).bind
    intro y _
    exact .pure (op.apply x y)
  | ternary op first second third ih₁ ih₂ ih₃ =>
    apply (ih₁ fun name h => hcall name (by simp [h])).bind
    intro x _
    apply (ih₂ fun name h => hcall name (by simp [h])).bind
    intro y _
    apply (ih₃ fun name h => hcall name (by simp [h])).bind
    intro z _
    exact .pure (op.apply x y z)

end Substitute

end Node

namespace Context

/-- The answers depend on the questions alone, and no question changes the state. -/
structure Stateless (c : Context σ) : Prop where
  resolve : ∀ name arguments, ∃ answer, ∀ state,
    outcome (c.resolve name arguments) state = (answer, state)
  knows : c.KnowsByName

theorem stateless_stateless (resolve : String → List Float → Except NameError Float)
    (known : String → Bool) : (stateless resolve known : Context σ).Stateless := by
  refine ⟨fun name arguments => ⟨resolve name arguments, ?_⟩, knowsByName_stateless resolve known⟩
  exact outcome_stateless arguments

theorem Stateless.evaluate {c : Context σ} (h : c.Stateless) (t : Node) (first other : σ) :
    outcome (t.evaluate c) other = ((outcome (t.evaluate c) first).1, other) := by
  have hsim : Sim (fun _ _ => True) (t.evaluate c) (t.evaluate c) := by
    apply t.sim_evaluate
    intro name arguments _ s s' _
    obtain ⟨answer, hanswer⟩ := h.resolve name arguments
    rw [hanswer, hanswer]
    exact ⟨rfl, trivial⟩
  have hkeeps : (outcome (t.evaluate c) other).2 = other := by
    refine t.keeps_evaluate (I := fun state => state = other) ?_ rfl
    intro name arguments state hstate
    obtain ⟨answer, hanswer⟩ := h.resolve name arguments
    rw [hanswer, hstate]
  exact Prod.ext (hsim other first trivial).1 hkeeps

end Context

namespace Cascade

theorem stateless {xs : List (Context σ)} (h : ∀ x ∈ xs, x.Stateless) :
    (Cascade.context ⟨xs⟩).Stateless := by
  have hknows : ∀ x ∈ xs, x.KnowsByName := fun x hx => (h x hx).knows
  refine ⟨fun name arguments => ?_, knowsByName hknows⟩
  rcases exists_first name xs with ⟨before, c, after, rfl, hc, hbefore⟩ | hnone
  · obtain ⟨answer, hanswer⟩ := (h c (by simp)).resolve name arguments
    refine ⟨answer, fun state => ?_⟩
    rw [resolve_of_first hknows hc hbefore, hanswer]
  · exact ⟨_, resolve_of_none hknows hnone arguments⟩

end Cascade

namespace Bindings

theorem get?_insert (env : Bindings) (x name : String) (value : Float) :
    (env.insert x value).get? name = if x = name then some value else env.get? name := by
  simp only [get?, insert, Std.TreeMap.getElem?_insert, Std.compare_eq_iff_eq]

theorem get?_ofList_singleton (x name : String) (value : Float) :
    (ofList [(x, value)]).get? name = if x = name then some value else none :=
  get?_insert empty x name value

theorem knows_context (env : Bindings) (name : String) (state : σ) :
    env.context.knows name state = ((env.get? name).isSome, state) := by
  rw [get?, ← Std.TreeMap.contains_eq_isSome_getElem?]
  rfl

variable {env : Bindings} {name : String}

/-- A bound name belongs to the bindings that are tried first, with and without arguments. -/
theorem resolve_cons_of_bound {value : Float} (h : env.get? name = some value)
    (xs : List (Context σ)) :
    (Cascade.context ⟨env.context :: xs⟩).resolve name = env.context.resolve name := by
  funext arguments state
  simp only [Cascade.context, Cascade.choose?, knows_context, h, Option.isSome_some]

theorem resolve_cons_of_unbound (h : env.get? name = none) (xs : List (Context σ)) :
    (Cascade.context ⟨env.context :: xs⟩).resolve name = (Cascade.context ⟨xs⟩).resolve name := by
  funext arguments state
  simp only [Cascade.context, Cascade.choose?, knows_context, h, Option.isSome_none]

end Bindings

namespace Node

variable {c : Context σ} {t e : Node} {x : String} {value : Float}

theorem evaluate_substitute_only (hc : c.Stateless) (ht : ¬ t.Calls x) {state : σ}
    (he : (outcome (e.evaluate (Cascade.context ⟨[c]⟩)) state).1 = .ok value) :
    (t.substitute (only x e)).evaluate (Cascade.context ⟨[c]⟩) =
      t.evaluate (Cascade.context ⟨[(Bindings.ofList [(x, value)]).context, c]⟩) := by
  have hbound : (Bindings.ofList [(x, value)]).get? x = some value := by
    rw [Bindings.get?_ofList_singleton, if_pos rfl]
  have hunbound : ∀ name, name ≠ x → (Bindings.ofList [(x, value)]).get? name = none := by
    intro name hname
    rw [Bindings.get?_ofList_singleton, if_neg (Ne.symm hname)]
  have hvalue : ∀ s, outcome (e.evaluate (Cascade.context ⟨[c]⟩)) s = (.ok value, s) := by
    intro s
    rw [(Cascade.stateless (List.forall_mem_singleton.mpr hc)).evaluate e state s, he]
  apply Eq.symm
  apply Sim.eq
  apply sim_substitute
  · intro name
    by_cases hname : name = x
    · rintro s _ rfl
      rw [hname, only, if_pos rfl, Option.getD_some, hvalue, Bindings.resolve_cons_of_bound hbound,
        Bindings.context, Context.outcome_stateless, Bindings.resolve_of_bound hbound]
      exact ⟨rfl, rfl⟩
    · rw [Bindings.resolve_cons_of_unbound (hunbound name hname), only, if_neg hname]
      exact .refl _
  · intro name hcalls arguments
    rw [Bindings.resolve_cons_of_unbound (hunbound name fun hname => ht (hname ▸ hcalls))]
    exact .refl _

end Node

end Formula
