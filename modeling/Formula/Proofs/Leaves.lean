import Formula.Context.Layer
import Formula.Proofs.Record

/-! Nested cascades. Whether a name is known is asked anew on each level, but as long as the answers
depend on the name alone, a cascade of cascades is one cascade of all the contexts in it, from left
to right. Of these one is asked to resolve a name, once: the first that knows it. -/

namespace Formula

open Answer (outcome)

variable {σ ε : Type}

namespace Context

/-- Whether a name is known depends on nothing but the name, and asking changes no state. -/
def KnowsByName (c : Context σ) : Prop :=
  ∃ known : String → Bool, ∀ name state, c.knows name state = (known name, state)

def Claims (c : Context σ) (name : String) : Prop := ∃ state, (c.knows name state).1 = true

theorem KnowsByName.knows_eq {c : Context σ} (h : c.KnowsByName) (name : String) :
    (c.Claims name ∧ ∀ state, c.knows name state = (true, state)) ∨
      (¬ c.Claims name ∧ ∀ state, c.knows name state = (false, state)) := by
  obtain ⟨known, h⟩ := h
  by_cases hc : c.Claims name
  · have hk : known name = true := by
      obtain ⟨state, hs⟩ := hc
      rwa [h] at hs
    exact .inl ⟨hc, fun state => by rw [h, hk]⟩
  · refine .inr ⟨hc, fun state => ?_⟩
    cases hk : known name with
    | false => rw [h, hk]
    | true => exact absurd ⟨state, by rw [h, hk]⟩ hc

theorem knowsByName_stateless (resolve : String → List Float → Except NameError Float)
    (known : String → Bool) : (stateless resolve known : Context σ).KnowsByName :=
  ⟨known, fun _ _ => rfl⟩

theorem KnowsByName.recording {c : Context σ} (h : c.KnowsByName) (entry : Resolution → ε) :
    (c.recording entry).KnowsByName := by
  obtain ⟨known, h⟩ := h
  refine ⟨known, ?_⟩
  rintro name ⟨state, entries⟩
  simp [Context.recording, h]

theorem claims_recording {c : Context σ} (entry : Resolution → ε) (name : String) :
    (c.recording entry).Claims name ↔ c.Claims name := by
  constructor
  · rintro ⟨⟨state, entries⟩, h⟩
    exact ⟨state, h⟩
  · rintro ⟨state, h⟩
    exact ⟨(state, []), h⟩

theorem eq_of_resolve_of_knows {c d : Context σ}
    (hr : ∀ name arguments state, c.resolve name arguments state = d.resolve name arguments state)
    (hk : ∀ name state, c.knows name state = d.knows name state) : c = d := by
  cases c
  cases d
  congr
  · funext name arguments state
    exact hr name arguments state
  · funext name state
    exact hk name state

end Context

namespace Cascade

open Context (eq_of_resolve_of_knows claims_recording outcome_recording)

theorem choose?_append (name : String) (xs ys : List (Context σ)) (state : σ) :
    choose? name (xs ++ ys) state = match choose? name xs state with
      | (some c, state) => (some c, state)
      | (none, state) => choose? name ys state := by
  induction xs generalizing state with
  | nil => rfl
  | cons x xs ih =>
    rw [List.cons_append, choose?, choose?]
    rcases x.knows name state with ⟨_ | _, state⟩
    · exact ih state
    · rfl

theorem choose?_of_none {name : String} {xs : List (Context σ)} (h : ∀ x ∈ xs, x.KnowsByName)
    (hxs : ∀ x ∈ xs, ¬ x.Claims name) (state : σ) : choose? name xs state = (none, state) := by
  induction xs with
  | nil => rfl
  | cons x xs ih =>
    rcases (h x List.mem_cons_self).knows_eq name with ⟨hx, -⟩ | ⟨-, hx⟩
    · exact absurd hx (hxs x List.mem_cons_self)
    · rw [choose?, hx]
      exact ih (fun y hy => h y (List.mem_cons_of_mem x hy))
        (fun y hy => hxs y (List.mem_cons_of_mem x hy))

theorem choose?_of_first {name : String} {before after : List (Context σ)} {c : Context σ}
    (h : ∀ x ∈ before ++ c :: after, x.KnowsByName) (hc : c.Claims name)
    (hbefore : ∀ d ∈ before, ¬ d.Claims name) (state : σ) :
    choose? name (before ++ c :: after) state = (some c, state) := by
  rw [choose?_append, choose?_of_none (fun x hx => h x (List.mem_append_left _ hx)) hbefore]
  rcases (h c (by simp)).knows_eq name with ⟨-, hknows⟩ | ⟨hn, -⟩
  · simp only [choose?, hknows]
  · exact absurd hc hn

/-- Some context is the first to claim the name, or none claims it. -/
theorem exists_first (name : String) (xs : List (Context σ)) :
    (∃ before c after, xs = before ++ c :: after ∧ c.Claims name ∧
      ∀ d ∈ before, ¬ d.Claims name) ∨ ∀ x ∈ xs, ¬ x.Claims name := by
  induction xs with
  | nil => exact .inr (by simp)
  | cons x xs ih =>
    by_cases hx : x.Claims name
    · exact .inl ⟨[], x, xs, rfl, hx, by simp⟩
    · rcases ih with ⟨before, c, after, rfl, hc, hbefore⟩ | ih
      · exact .inl ⟨x :: before, c, after, rfl, hc, List.forall_mem_cons.mpr ⟨hx, hbefore⟩⟩
      · exact .inr (List.forall_mem_cons.mpr ⟨hx, ih⟩)

theorem exists_choose?_eq {xs : List (Context σ)} (h : ∀ x ∈ xs, x.KnowsByName) (name : String) :
    ∃ chosen, ∀ state, choose? name xs state = (chosen, state) := by
  rcases exists_first name xs with ⟨before, c, after, rfl, hc, hbefore⟩ | hxs
  · exact ⟨some c, choose?_of_first h hc hbefore⟩
  · exact ⟨none, choose?_of_none h hxs⟩

theorem context_nested {xs : List (Context σ)} (h : ∀ x ∈ xs, x.KnowsByName)
    (ys : List (Context σ)) :
    Cascade.context ⟨Cascade.context ⟨xs⟩ :: ys⟩ = Cascade.context ⟨xs ++ ys⟩ := by
  -- The inner contexts are asked twice whether they know the name, which must not matter.
  apply eq_of_resolve_of_knows
  · intro name arguments state
    obtain ⟨chosen, hx⟩ := exists_choose?_eq h name
    simp only [context, knowsAny_eq, choose?, choose?_append, hx]
    cases chosen with
    | none => rfl
    | some c => simp only [Option.isSome, hx]
  · intro name state
    obtain ⟨chosen, hx⟩ := exists_choose?_eq h name
    simp only [context, knowsAny_eq, choose?, choose?_append, hx]
    cases chosen <;> rfl

theorem context_cons {xs ys : List (Context σ)}
    (h : Cascade.context ⟨xs⟩ = Cascade.context ⟨ys⟩) (c : Context σ) :
    Cascade.context ⟨c :: xs⟩ = Cascade.context ⟨c :: ys⟩ := by
  apply eq_of_resolve_of_knows
  · intro name arguments state
    have hr := fun state => congrArg (fun d => d.resolve name arguments state) h
    simp only [context, choose?] at hr ⊢
    rcases c.knows name state with ⟨_ | _, state⟩
    · exact hr state
    · rfl
  · intro name state
    have hk := fun state => congrArg (fun d => d.knows name state) h
    simp only [context, knowsAny] at hk ⊢
    rcases c.knows name state with ⟨_ | _, state⟩
    · exact hk state
    · rfl

/-- A cascade has the first context that knows the name resolve it. -/
theorem resolve_of_first {name : String} {before after : List (Context σ)} {c : Context σ}
    (h : ∀ x ∈ before ++ c :: after, x.KnowsByName) (hc : c.Claims name)
    (hbefore : ∀ d ∈ before, ¬ d.Claims name) (arguments : List Float) :
    (Cascade.context ⟨before ++ c :: after⟩).resolve name arguments =
      c.resolve name arguments := by
  funext state
  simp only [context, choose?_of_first h hc hbefore]

theorem resolve_of_none {name : String} {xs : List (Context σ)} (h : ∀ x ∈ xs, x.KnowsByName)
    (hxs : ∀ x ∈ xs, ¬ x.Claims name) (arguments : List Float) (state : σ) :
    outcome ((Cascade.context ⟨xs⟩).resolve name arguments) state =
      (.error (.unresolved name arguments.length), state) := by
  simp only [outcome, context, choose?_of_none h hxs]

/-- The contexts of a cascade, each of which records its answers under its place in the list. -/
def observed (xs : List (Context σ)) : List (Context (σ × List (Nat × Resolution))) :=
  xs.mapIdx fun i c => c.recording fun r => (i, r)

theorem knowsByName_of_mem_observed {xs : List (Context σ)} (h : ∀ x ∈ xs, x.KnowsByName) :
    ∀ x ∈ observed xs, x.KnowsByName := by
  intro x hx
  obtain ⟨i, hi, rfl⟩ := List.mem_mapIdx.mp hx
  exact (h _ (List.getElem_mem hi)).recording _

theorem not_claims_of_mem_observed {name : String} {xs : List (Context σ)}
    (h : ∀ x ∈ xs, ¬ x.Claims name) : ∀ x ∈ observed xs, ¬ x.Claims name := by
  intro x hx
  obtain ⟨i, hi, rfl⟩ := List.mem_mapIdx.mp hx
  rw [claims_recording]
  exact h _ (List.getElem_mem hi)

theorem outcome_observed_of_first {name : String} {before after : List (Context σ)}
    {c : Context σ} (h : ∀ x ∈ before ++ c :: after, x.KnowsByName) (hc : c.Claims name)
    (hbefore : ∀ d ∈ before, ¬ d.Claims name) (arguments : List Float) (state : σ) :
    outcome ((Cascade.context ⟨observed (before ++ c :: after)⟩).resolve name arguments)
        (state, []) =
      match outcome (c.resolve name arguments) state with
      | (answer, final) => (answer, final, [(before.length, ⟨name, arguments, answer⟩)]) := by
  have hknows := knowsByName_of_mem_observed h
  rw [observed, List.mapIdx_append, List.mapIdx_cons, Nat.zero_add] at hknows ⊢
  rw [resolve_of_first hknows ((claims_recording _ name).mpr hc)
    (not_claims_of_mem_observed hbefore), outcome_recording]
  simp only [List.nil_append]

end Cascade

namespace Layer

open Context (knowsByName_stateless)

mutual

/-- The contexts of a description that are no cascades, from left to right. -/
def leaves : Layer σ → List (Context σ)
  | .standard => [Standard.context]
  | .bindings values => [values.context]
  | .host interface => [interface.context]
  | .placeholder => [.placeholder]
  | .other c => [c]
  | .shared layer => leaves layer
  | .cascade layers => leavesAll layers

def leavesAll : List (Layer σ) → List (Context σ)
  | [] => []
  | layer :: layers => leaves layer ++ leavesAll layers

end

def isCascade : Layer σ → Bool
  | .cascade _ => true
  | .shared layer => layer.isCascade
  | _ => false

theorem context_contexts {layers : List (Layer σ)}
    (ih : ∀ layer ∈ layers, (∀ c ∈ layer.leaves, c.KnowsByName) → ∀ rest,
      Cascade.context ⟨layer.context :: rest⟩ = Cascade.context ⟨layer.leaves ++ rest⟩)
    (h : ∀ c ∈ leavesAll layers, c.KnowsByName) :
    Cascade.context ⟨contexts layers⟩ = Cascade.context ⟨leavesAll layers⟩ := by
  induction layers with
  | nil => rfl
  | cons layer layers ihl =>
    have hall := List.forall_mem_append.mp h
    have hrest := ihl (fun other ho => ih other (List.mem_cons_of_mem layer ho)) hall.2
    rw [contexts, leavesAll, Cascade.context_cons hrest]
    exact ih layer List.mem_cons_self hall.1 _

theorem context_cons (layer : Layer σ) : (∀ c ∈ layer.leaves, c.KnowsByName) → ∀ rest,
    Cascade.context ⟨layer.context :: rest⟩ = Cascade.context ⟨layer.leaves ++ rest⟩ := by
  induction layer using Layer.induct with
  | standard => exact fun _ _ => rfl
  | bindings values => exact fun _ _ => rfl
  | host interface => exact fun _ _ => rfl
  | placeholder => exact fun _ _ => rfl
  | other c => exact fun _ _ => rfl
  | shared layer ih => exact ih
  | cascade layers ih =>
    intro h rest
    rw [context, context_contexts ih h]
    exact Cascade.context_nested h rest

theorem context_eq_of_isCascade (layer : Layer σ) (hroot : layer.isCascade = true)
    (h : ∀ c ∈ layer.leaves, c.KnowsByName) : layer.context = Cascade.context ⟨layer.leaves⟩ := by
  induction layer using Layer.induct with
  | standard => cases hroot
  | bindings values => cases hroot
  | host interface => cases hroot
  | placeholder => cases hroot
  | other c => cases hroot
  | shared layer ih => exact ih hroot h
  | cascade layers ih => exact context_contexts (fun layer _ => context_cons layer) h

mutual

/-- The same description, where each leaf records its answers under its place among the leaves,
the first of which is at the place `first`. -/
def observed (first : Nat) : Layer σ → Layer (σ × List (Nat × Resolution))
  | .shared layer => .shared (layer.observed first)
  | .cascade layers => .cascade (observedAll first layers)
  | layer => .other (layer.context.recording fun r => (first, r))

def observedAll (first : Nat) : List (Layer σ) → List (Layer (σ × List (Nat × Resolution)))
  | [] => []
  | layer :: layers =>
    layer.observed first :: observedAll (first + layer.leaves.length) layers

end

theorem isCascade_observed (first : Nat) (layer : Layer σ) :
    (layer.observed first).isCascade = layer.isCascade := by
  induction layer using Layer.induct with
  | standard | bindings values | host interface | placeholder | other c => rfl
  | shared layer ih => exact ih
  | cascade layers ih => rfl

theorem leavesAll_observedAll (first : Nat) {layers : List (Layer σ)}
    (ih : ∀ layer ∈ layers, ∀ first, (layer.observed first).leaves =
      layer.leaves.mapIdx fun i c => c.recording fun r => (first + i, r)) :
    leavesAll (observedAll first layers) =
      (leavesAll layers).mapIdx fun i c => c.recording fun r => (first + i, r) := by
  induction layers generalizing first with
  | nil => rfl
  | cons layer layers ihl =>
    rw [observedAll, leavesAll, leavesAll, List.mapIdx_append, ih layer List.mem_cons_self,
      ihl _ fun other ho => ih other (List.mem_cons_of_mem layer ho)]
    simp only [Nat.add_assoc, Nat.add_comm layer.leaves.length]

theorem leaves_observed (layer : Layer σ) (first : Nat) : (layer.observed first).leaves =
    layer.leaves.mapIdx fun i c => c.recording fun r => (first + i, r) := by
  induction layer using Layer.induct generalizing first with
  | standard | bindings values | host interface | placeholder | other c => rfl
  | shared layer ih => exact ih first
  | cascade layers ih => exact leavesAll_observedAll first ih

/-- A cascade of cascades, of any depth, is one cascade of its leaves. To resolve a name it asks one
leaf, once: the first that knows the name, whose answer stands. If there is none, no leaf is asked
and the name is unresolved. -/
theorem context_eq_leaves (layer : Layer σ) (hroot : layer.isCascade = true)
    (h : ∀ c ∈ layer.leaves, c.KnowsByName) :
    layer.context = Cascade.context ⟨layer.leaves⟩ ∧
    ∀ name arguments state,
      (∃ before c after answer final, layer.leaves = before ++ c :: after ∧
        c.Claims name ∧ (∀ d ∈ before, ¬ d.Claims name) ∧
        outcome (c.resolve name arguments) state = (answer, final) ∧
        outcome (layer.context.resolve name arguments) state = (answer, final) ∧
        outcome ((layer.observed 0).context.resolve name arguments) (state, []) =
          (answer, final, [(before.length, ⟨name, arguments, answer⟩)])) ∨
      (∀ c ∈ layer.leaves, ¬ c.Claims name) ∧
        outcome (layer.context.resolve name arguments) state =
          (.error (.unresolved name arguments.length), state) ∧
        outcome ((layer.observed 0).context.resolve name arguments) (state, []) =
          (.error (.unresolved name arguments.length), state, []) := by
  have hflat := layer.context_eq_of_isCascade hroot h
  have hleaves : (layer.observed 0).leaves = Cascade.observed layer.leaves := by
    simp only [leaves_observed, Cascade.observed, Nat.zero_add]
  have hobserved :
      (layer.observed 0).context = Cascade.context ⟨Cascade.observed layer.leaves⟩ := by
    rw [← hleaves]
    apply context_eq_of_isCascade
    · rw [isCascade_observed, hroot]
    · rw [hleaves]
      exact Cascade.knowsByName_of_mem_observed h
  refine ⟨hflat, fun name arguments state => ?_⟩
  rw [hflat, hobserved]
  rcases Cascade.exists_first name layer.leaves with
    ⟨before, c, after, heq, hc, hbefore⟩ | hnone
  · rw [heq] at h ⊢
    rcases ho : outcome (c.resolve name arguments) state with ⟨answer, final⟩
    refine .inl ⟨before, c, after, answer, final, rfl, hc, hbefore, ho, ?_, ?_⟩
    · rw [Cascade.resolve_of_first h hc hbefore, ho]
    · rw [Cascade.outcome_observed_of_first h hc hbefore, ho]
  · exact .inr ⟨hnone, Cascade.resolve_of_none h hnone arguments state,
      Cascade.resolve_of_none (Cascade.knowsByName_of_mem_observed h)
        (Cascade.not_claims_of_mem_observed hnone) arguments (state, [])⟩

def counter : Context Nat where
  resolve name arguments count := .error (.arityMismatch name 2 arguments.length) (count + 1)
  knows name count := (name == "f", count)

def nested : Layer Nat :=
  .shared (.cascade [.cascade [], .shared (.cascade [.standard, .other counter]), .placeholder])

theorem context_eq_leaves_nested :
    nested.isCascade = true ∧ (∀ c ∈ nested.leaves, c.KnowsByName) ∧
    nested.context = Cascade.context ⟨[Standard.context, counter, .placeholder]⟩ ∧
    outcome ((nested.observed 0).context.resolve "f" []) (0, []) =
      (.error (.arityMismatch "f" 2 0), 1, [(1, ⟨"f", [], .error (.arityMismatch "f" 2 0)⟩)]) := by
  have h : ∀ c ∈ nested.leaves, c.KnowsByName := by
    intro c hc
    have hc : c ∈ [Standard.context, counter, .placeholder] := hc
    simp only [List.mem_cons, List.not_mem_nil, or_false] at hc
    rcases hc with rfl | rfl | rfl
    · exact knowsByName_stateless _ _
    · exact ⟨fun name => name == "f", fun _ _ => rfl⟩
    · exact knowsByName_stateless _ _
  exact ⟨rfl, h, (context_eq_leaves nested rfl h).1, rfl⟩

end Layer

end Formula
