import Formula.Proofs.Predictable

/-! The names that a context knows are those that have a value with some arguments. A cascade relies
on it: the context that it chooses for a name is one that can resolve it. Only the placeholder knows
names that it never resolves, and it keeps them from all contexts behind it. -/

namespace Formula

open Answer (outcome)

variable {σ : Type}

namespace Context

/-- The known names are those that have a value with some arguments. -/
def Exact (c : Context σ) : Prop := ∀ name state, (c.knows name state).1 = true ↔
  ∃ arguments value final, outcome (c.resolve name arguments) state = (.ok value, final)

theorem exact_stateless {resolve : String → List Float → Except NameError Float}
    {known : String → Bool}
    (h : ∀ name, known name = true ↔ ∃ arguments value, resolve name arguments = .ok value) :
    (stateless resolve known : Context σ).Exact := by
  intro name state
  simp only [outcome_stateless, Prod.mk.injEq, exists_and_left, exists_eq', and_true]
  exact h name

end Context

theorem Standard.exact : (Standard.context : Context σ).Exact := by
  apply Context.exact_stateless
  intro name
  simp only [resolve_eq_ok_iff]
  cases arity? name with
  | none => simp
  | some expected =>
    simp only [Option.isSome_some, Option.some_inj, true_iff]
    exact ⟨.replicate expected 0, List.length_replicate.symm⟩

theorem Bindings.exact (env : Bindings) : (env.context : Context σ).Exact := by
  apply Context.exact_stateless
  intro name
  rw [Std.TreeMap.contains_eq_isSome_getElem?]
  cases h : env.get? name with
  | some value => exact ⟨fun _ => ⟨[], value, resolve_of_bound h⟩, fun _ => by rw [← get?, h]; rfl⟩
  | none =>
    constructor
    · rw [← get?, h]
      exact nofun
    · rintro ⟨arguments, value, hvalue⟩
      rw [resolve_of_unbound h] at hvalue
      cases hvalue

namespace Interface

variable {interface : Interface σ} {name : String}

theorem contains_methods_iff :
    interface.methods.contains name = true ↔ ∃ arity, (interface.method? name arity).isSome := by
  rw [Std.TreeMap.contains_eq_isSome_getElem?]
  cases h : interface.methods[name]? with
  | none => simp [method?, h]
  | some overloads =>
    -- That a listed name has methods is a part of the interface.
    have hnonempty := interface.isEmpty_overloads name overloads h
    obtain ⟨arity, harity⟩ := Std.TreeMap.isEmpty_eq_false_iff_exists_contains_eq_true.mp hnonempty
    rw [Std.TreeMap.contains_eq_isSome_getElem?] at harity
    exact ⟨fun _ => ⟨arity, by rw [method?, h, Option.bind_some, harity]⟩, fun _ => rfl⟩

theorem contains_iff :
    interface.contains name = true ↔ ∃ arguments, (interface.accessor? name arguments).isSome := by
  rw [contains, Bool.or_eq_true, Bool.or_eq_true, contains_methods_iff,
    Std.TreeMap.contains_eq_isSome_getElem?, Std.TreeMap.contains_eq_isSome_getElem?]
  constructor
  · rintro ((hproperty | hfield) | ⟨arity, harity⟩)
    · exact ⟨[], by simp [accessor?_nil, hproperty]⟩
    · exact ⟨[], by simp [accessor?_nil, hfield]⟩
    · refine ⟨.replicate arity 0, ?_⟩
      cases arity with
      | zero => simp [accessor?_nil, harity]
      | succ n =>
        rw [accessor?_of_ne_nil _ _ (by simp [List.replicate_succ]), List.length_replicate,
          Option.isSome_map, harity]
  · rintro ⟨_ | ⟨x, arguments⟩, h⟩
    · simp only [accessor?_nil, Option.orElse_eq_orElse, Option.orElse_eq_or, Option.isSome_or,
        Option.isSome_map, Bool.or_eq_true] at h
      rcases h with hproperty | hfield | hmethod
      · exact .inl (.inl hproperty)
      · exact .inl (.inr hfield)
      · exact .inr ⟨0, hmethod⟩
    · rw [accessor?_of_ne_nil _ _ (List.cons_ne_nil _ _), Option.isSome_map] at h
      exact .inr ⟨_, h⟩

theorem exact (interface : Interface σ) : interface.context.Exact := by
  intro name host
  simp only [outcome_resolve]
  refine contains_iff.trans ⟨?_, ?_⟩
  · rintro ⟨arguments, h⟩
    obtain ⟨accessor, haccessor⟩ := Option.isSome_iff_exists.mp h
    exact ⟨arguments, _, _, by rw [haccessor]⟩
  · rintro ⟨arguments, value, final, h⟩
    refine ⟨arguments, ?_⟩
    cases haccessor : interface.accessor? name arguments with
    | some accessor => rfl
    | none =>
      rw [haccessor] at h
      cases h

end Interface

namespace Cascade

variable {name : String}

theorem knows_of_first {before after : List (Context σ)} {c : Context σ}
    (h : ∀ x ∈ before ++ c :: after, x.KnowsByName) (hc : c.Claims name)
    (hbefore : ∀ d ∈ before, ¬ d.Claims name) (state : σ) :
    (Cascade.context ⟨before ++ c :: after⟩).knows name state = (true, state) := by
  simp only [context, knowsAny_eq, choose?_of_first h hc hbefore, Option.isSome]

theorem knows_of_none {xs : List (Context σ)} (h : ∀ x ∈ xs, x.KnowsByName)
    (hxs : ∀ x ∈ xs, ¬ x.Claims name) (state : σ) :
    (Cascade.context ⟨xs⟩).knows name state = (false, state) := by
  simp only [context, knowsAny_eq, choose?_of_none h hxs, Option.isSome]

theorem exact {xs : List (Context σ)} (hknows : ∀ c ∈ xs, c.KnowsByName)
    (h : ∀ c ∈ xs, c.Exact) : (Cascade.context ⟨xs⟩).Exact := by
  intro name state
  rcases exists_first name xs with ⟨before, c, after, rfl, hc, hbefore⟩ | hnone
  · have hmem : c ∈ before ++ c :: after := List.mem_append_right before List.mem_cons_self
    have hclaims : (c.knows name state).1 = true := by
      rcases (hknows c hmem).knows_eq name with ⟨-, hk⟩ | ⟨hn, -⟩
      · rw [hk]
      · exact absurd hc hn
    simp only [knows_of_first hknows hc hbefore, resolve_of_first hknows hc hbefore, true_iff]
    exact (h c hmem name state).mp hclaims
  · simp only [knows_of_none hknows hnone, resolve_of_none hknows hnone, Bool.false_eq_true,
      false_iff]
    rintro ⟨arguments, value, final, ⟨⟩⟩

end Cascade

theorem Context.Definite.exact {c : Context σ} (h : c.Definite) : c.Exact := by
  cases h with
  | standard => exact Standard.exact
  | bindings values => exact values.exact
  | host interface => exact interface.exact

namespace Layer

theorem exact (layer : Layer σ) (h : ∀ c ∈ layer.leaves, c.KnowsByName ∧ c.Exact) :
    layer.context.KnowsByName ∧ layer.context.Exact := by
  refine layer.context_of_leaves (P := fun c => c.KnowsByName ∧ c.Exact) ?_ h
  intro xs hxs
  have hknows : ∀ c ∈ xs, c.KnowsByName := fun c hc => (hxs c hc).1
  exact ⟨Cascade.knowsByName hknows, Cascade.exact hknows fun c hc => (hxs c hc).2⟩

/-- A description without placeholders and without contexts from elsewhere knows the names that it
resolves with some arguments, and no others. The standard names have a value with as many arguments
as their table says, whatever these are. A placeholder makes a cascade know every name that no
context before it knows, and resolve none of them. -/
theorem knows_iff_resolves (layer : Layer σ) :
    ((∀ c ∈ layer.leaves, c.Definite) → ∀ name state,
      ((layer.context.knows name state).1 = true ↔ ∃ arguments value final,
        outcome (layer.context.resolve name arguments) state = (.ok value, final)) ∧
      ((layer.context.knows name state).1 = false → ∀ arguments state', ∃ error,
        outcome (layer.context.resolve name arguments) state' = (.error error, state'))) ∧
    (∀ name arguments (state : σ),
      (∃ value final, outcome (Standard.context.resolve name arguments) state =
        (.ok value, final)) ↔
      Standard.arity? name = some arguments.length) ∧
    (layer.isCascade = true → (∀ c ∈ layer.leaves, c.KnowsByName) → ∀ name before after,
      layer.leaves = before ++ .placeholder :: after → (∀ c ∈ before, ¬ c.Claims name) →
      ∀ state, layer.context.knows name state = (true, state) ∧
        ∀ arguments, outcome (layer.context.resolve name arguments) state =
          (.error (.placeholder name), state)) := by
  refine ⟨fun h name state => ?_, fun name arguments state => ?_, ?_⟩
  · obtain ⟨⟨known, hknown⟩, hexact⟩ :=
      layer.exact fun c hc => ⟨(h c hc).knowsByName, (h c hc).exact⟩
    refine ⟨hexact name state, fun hfalse arguments state' => ?_⟩
    have hfalse' : (layer.context.knows name state').1 ≠ true := by
      rw [hknown] at hfalse ⊢
      exact Bool.eq_false_iff.mp hfalse
    have hpredictable :=
      (layer.predictable fun c hc => ⟨(h c hc).knowsByName, (h c hc).predictable⟩).2
    rcases hpredictable name arguments.length with htakes | ⟨error, hrefuses, -⟩
    · exact absurd ((hexact name state').mpr ⟨arguments, htakes arguments rfl state'⟩) hfalse'
    · exact ⟨error, hrefuses arguments rfl state'⟩
  · rw [← Standard.resolve_eq_ok_iff, Standard.context, Context.outcome_stateless]
    simp
  · intro hroot h name before after hleaves hbefore state
    have hclaims : (Context.placeholder : Context σ).Claims name := ⟨state, rfl⟩
    have hflat := layer.context_eq_of_isCascade hroot h
    rw [hleaves] at h hflat
    rw [hflat]
    refine ⟨Cascade.knows_of_first h hclaims hbefore state, fun arguments => ?_⟩
    rw [Cascade.resolve_of_first h hclaims hbefore]
    rfl

def nestedHost : Layer Float :=
  .shared (.cascade [.cascade [], .bindings (.ofList [("x", 1.5)]),
    .cascade [.host (.ofList [.field "heat" fun heat => (heat, heat)]), .standard]])

/-- A variable in front of a placeholder, which stands before the standard names. -/
def guarded : Layer Float :=
  .cascade [.bindings (.ofList [("x", 1.5)]), .shared (.cascade [.placeholder, .standard])]

theorem knows_iff_resolves_nestedHost :
    (∀ c ∈ nestedHost.leaves, c.Definite) ∧ (nestedHost.context.knows "heat" 20).1 = true ∧
    (nestedHost.context.knows "shots" 20).1 = false ∧
    (∃ arguments value final,
      outcome (nestedHost.context.resolve "heat" arguments) 20 = (.ok value, final)) ∧
    (∀ arguments, ∃ error,
      outcome (nestedHost.context.resolve "shots" arguments) 20 = (.error error, 20)) ∧
    guarded.isCascade = true ∧ (∀ c ∈ guarded.leaves, c.KnowsByName) ∧
    ∀ arguments, outcome (guarded.context.resolve "sin" arguments) 20 =
      (.error (.placeholder "sin"), 20) := by
  have hdefinite : ∀ c ∈ nestedHost.leaves, c.Definite :=
    List.forall_mem_cons.mpr ⟨.bindings _, List.forall_mem_cons.mpr ⟨.host _,
      List.forall_mem_singleton.mpr .standard⟩⟩
  have hknows : ∀ c ∈ guarded.leaves, c.KnowsByName :=
    List.forall_mem_cons.mpr ⟨Context.knowsByName_stateless _ _,
      List.forall_mem_cons.mpr ⟨Context.knowsByName_stateless _ _,
        List.forall_mem_singleton.mpr (Context.knowsByName_stateless _ _)⟩⟩
  have hbefore : ∀ c ∈ [(Bindings.ofList [("x", 1.5)]).context], ¬ c.Claims (σ := Float) "sin" := by
    rw [List.forall_mem_singleton]
    rintro ⟨state, h⟩
    have hnone : (Bindings.ofList [("x", 1.5)]).values.contains "sin" = false := by decide
    exact absurd h (Bool.eq_false_iff.mp hnone)
  have hheat : (nestedHost.context.knows "heat" 20).1 = true := by decide
  have hshots : (nestedHost.context.knows "shots" 20).1 = false := by decide
  obtain ⟨hnested, -, -⟩ := knows_iff_resolves nestedHost
  obtain ⟨-, -, hguarded⟩ := knows_iff_resolves guarded
  refine ⟨hdefinite, hheat, hshots, ?_, ?_, rfl, hknows, ?_⟩
  · exact (hnested hdefinite "heat" 20).1.mp hheat
  · exact fun arguments => (hnested hdefinite "shots" 20).2 hshots arguments 20
  · exact (hguarded rfl hknows "sin" _ [Standard.context] rfl hbefore 20).2

end Layer

end Formula
