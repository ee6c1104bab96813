import Formula.Proofs.Leaves

/-! Whether a name has a value. For the contexts of this library that depends on the name and on the
number of its arguments alone: neither the arguments themselves nor the state of a host decide it.
What is refused is refused with an error that tells the truth, and nothing is changed by it. -/

namespace Formula

open Answer (outcome)

variable {σ : Type}

namespace Context

/-- The name has a value with any `count` arguments, in every state. -/
def Takes (c : Context σ) (name : String) (count : Nat) : Prop :=
  ∀ arguments : List Float, arguments.length = count → ∀ state, ∃ value final,
    outcome (c.resolve name arguments) state = (.ok value, final)

def Refuses (c : Context σ) (name : String) (count : Nat) (error : NameError) : Prop :=
  ∀ arguments : List Float, arguments.length = count → ∀ state,
    outcome (c.resolve name arguments) state = (.error error, state)

/-- The error is about this name and this number of arguments, and what it says of them is true. -/
inductive Explains (c : Context σ) (name : String) (count : Nat) : NameError → Prop
  | unresolved : Explains c name count (.unresolved name count)
  | unknownFunction : 0 < count → Explains c name count (.unknownFunction name)
  /-- With the number of arguments that the error asks for, the name has a value. -/
  | arityMismatch {expected} : expected ≠ count → c.Takes name expected →
      Explains c name count (.arityMismatch name expected count)
  | placeholder : Explains c name count (.placeholder name)

theorem Explains.name_eq {c : Context σ} {name : String} {count : Nat} {error : NameError}
    (h : c.Explains name count error) : error.name = name := by
  cases h <;> rfl

def Decides (c : Context σ) (name : String) (count : Nat) : Prop :=
  c.Takes name count ∨ ∃ error, c.Refuses name count error ∧ c.Explains name count error

/-- What has a value is told by the name and the number of arguments. -/
def Predictable (c : Context σ) : Prop := ∀ name count, c.Decides name count

variable {c d : Context σ} {name : String} {count : Nat} {error : NameError}

theorem Takes.congr (hd : c.resolve name = d.resolve name) (h : c.Takes name count) :
    d.Takes name count := by
  unfold Takes at h ⊢
  rwa [← hd]

theorem Explains.congr (hd : c.resolve name = d.resolve name) (h : c.Explains name count error) :
    d.Explains name count error := by
  cases h with
  | unresolved => exact .unresolved
  | unknownFunction hcount => exact .unknownFunction hcount
  | arityMismatch hne htakes => exact .arityMismatch hne (htakes.congr hd)
  | placeholder => exact .placeholder

theorem Decides.congr (hd : c.resolve name = d.resolve name) (h : c.Decides name count) :
    d.Decides name count := by
  rcases h with h | ⟨error, hrefuses, hexplains⟩
  · exact .inl (h.congr hd)
  · refine .inr ⟨error, ?_, hexplains.congr hd⟩
    unfold Refuses at hrefuses ⊢
    rwa [← hd]

theorem Decides.takes {arguments : List Float} (h : c.Decides name arguments.length) {state : σ}
    {value : Float} (hvalue : (outcome (c.resolve name arguments) state).1 = .ok value) :
    c.Takes name arguments.length := by
  rcases h with h | ⟨error, hrefuses, -⟩
  · exact h
  · rw [hrefuses arguments rfl state] at hvalue
    cases hvalue

theorem Decides.refuses {arguments : List Float} (h : c.Decides name arguments.length) {state : σ}
    (herror : (outcome (c.resolve name arguments) state).1 = .error error) :
    c.Refuses name arguments.length error ∧ c.Explains name arguments.length error := by
  rcases h with h | ⟨other, hrefuses, hexplains⟩
  · obtain ⟨value, final, hvalue⟩ := h arguments rfl state
    rw [hvalue] at herror
    cases herror
  · rw [hrefuses arguments rfl state] at herror
    obtain rfl : other = error := Except.error.inj herror
    exact ⟨hrefuses, hexplains⟩

theorem Predictable.state_eq_of_error (h : c.Predictable) {arguments : List Float} {state final : σ}
    (herror : outcome (c.resolve name arguments) state = (.error error, final)) :
    final = state := by
  have hrefuses := ((h name arguments.length).refuses (congrArg Prod.fst herror)).1
  rw [hrefuses arguments rfl state] at herror
  exact (congrArg Prod.snd herror).symm

variable {resolve : String → List Float → Except NameError Float} {known : String → Bool}

theorem outcome_stateless (arguments : List Float) (state : σ) :
    outcome ((stateless resolve known).resolve name arguments) state =
      (resolve name arguments, state) := by
  simp only [outcome, stateless]
  cases resolve name arguments <;> rfl

theorem takes_stateless
    (h : ∀ arguments, arguments.length = count → ∃ value, resolve name arguments = .ok value) :
    (stateless resolve known : Context σ).Takes name count := by
  intro arguments hlength state
  obtain ⟨value, hvalue⟩ := h arguments hlength
  exact ⟨value, state, by rw [outcome_stateless, hvalue]⟩

theorem refuses_stateless
    (h : ∀ arguments, arguments.length = count → resolve name arguments = .error error) :
    (stateless resolve known : Context σ).Refuses name count error := by
  intro arguments hlength state
  rw [outcome_stateless, h arguments hlength]

theorem predictable_placeholder : (placeholder : Context σ).Predictable := by
  intro name count
  exact .inr ⟨_, refuses_stateless fun _ _ => rfl, .placeholder⟩

end Context

open Context (takes_stateless refuses_stateless)

namespace Standard

section Tables

variable {name : String} {arguments : List Float} {expected : Nat}

theorem arity?_of_value? {value : Float} (h : value? name arguments = some value) :
    arity? name = some arguments.length := by
  revert h
  unfold value?
  split <;> simp [arity?]

theorem exists_value?_of_arity? (h : arity? name = some arguments.length) :
    ∃ value, value? name arguments = some value := by
  -- Each name leaves only the lists of its own length, which the other table has to have.
  unfold arity? at h
  split at h <;> rcases arguments with _ | ⟨x, _ | ⟨y, _ | ⟨z, _ | ⟨w, _ | _⟩⟩⟩⟩ <;>
    simp_all [value?]

/-- The table of values has a row for a name and its arguments exactly if the other table says that
the name takes so many. -/
theorem exists_value?_iff :
    (∃ value, value? name arguments = some value) ↔ arity? name = some arguments.length :=
  ⟨fun ⟨_, h⟩ => arity?_of_value? h, exists_value?_of_arity?⟩

theorem value?_eq_none (h : arity? name ≠ some arguments.length) :
    value? name arguments = none := by
  rwa [Option.eq_none_iff_forall_ne_some, ← not_exists, exists_value?_iff]

theorem resolve_of_mismatch (h : arity? name = some expected) (hne : expected ≠ arguments.length) :
    resolve name arguments = .error (.arityMismatch name expected arguments.length) := by
  have hnone : value? name arguments = none := value?_eq_none (by simpa [h] using hne)
  simp only [resolve, hnone, h]

theorem resolve_of_none (h : arity? name = none) (arguments : List Float) :
    resolve name arguments =
      if arguments = [] then .error (.unresolved name 0) else .error (.unknownFunction name) := by
  have hnone : value? name arguments = none := value?_eq_none (by simp [h])
  simp only [resolve, hnone, h]

/-- The names of the table have a value with as many arguments as the table says, and no others. -/
theorem resolve_eq_ok_iff (name : String) (arguments : List Float) :
    (∃ value, resolve name arguments = .ok value) ↔ arity? name = some arguments.length := by
  rw [← exists_value?_iff, resolve]
  cases value? name arguments with
  | some value => simp
  | none =>
    cases arity? name with
    | some expected => simp
    | none => by_cases h : arguments = [] <;> simp [h]

end Tables

theorem takes_arity {name : String} {expected : Nat} (h : arity? name = some expected) :
    (context : Context σ).Takes name expected := by
  apply takes_stateless
  rintro arguments rfl
  exact (resolve_eq_ok_iff name arguments).mpr h

theorem predictable : (context : Context σ).Predictable := by
  intro name count
  cases h : arity? name with
  | some expected =>
    by_cases hcount : expected = count
    · subst hcount
      exact .inl (takes_arity h)
    · refine .inr ⟨_, ?_, .arityMismatch hcount (takes_arity h)⟩
      apply refuses_stateless
      rintro arguments rfl
      exact resolve_of_mismatch h hcount
  | none =>
    rcases Nat.eq_zero_or_pos count with rfl | hcount
    · refine .inr ⟨_, ?_, .unresolved⟩
      apply refuses_stateless
      intro arguments hlength
      rw [resolve_of_none h, if_pos (List.eq_nil_of_length_eq_zero hlength)]
    · refine .inr ⟨_, ?_, .unknownFunction hcount⟩
      apply refuses_stateless
      rintro arguments rfl
      rw [resolve_of_none h, if_neg (List.ne_nil_of_length_pos hcount)]

end Standard

namespace Bindings

variable {env : Bindings} {name : String}

theorem resolve_of_bound {value : Float} (h : env.get? name = some value) :
    env.resolve name [] = .ok value := by
  simp only [resolve, h]

theorem resolve_of_unbound (h : env.get? name = none) (arguments : List Float) :
    env.resolve name arguments = .error (.unresolved name arguments.length) := by
  simp only [resolve, h]

theorem resolve_of_ne_nil {arguments : List Float} (h : arguments ≠ []) :
    env.resolve name arguments = .error (.unresolved name arguments.length) := by
  unfold resolve
  split
  · exact absurd rfl h
  · rfl

theorem predictable (env : Bindings) : (env.context : Context σ).Predictable := by
  intro name count
  rcases Nat.eq_zero_or_pos count with rfl | hcount
  · cases h : env.get? name with
    | some value =>
      apply Or.inl
      apply takes_stateless
      intro arguments hlength
      rw [List.eq_nil_of_length_eq_zero hlength]
      exact ⟨value, resolve_of_bound h⟩
    | none =>
      refine .inr ⟨_, ?_, .unresolved⟩
      apply refuses_stateless
      intro arguments hlength
      rw [resolve_of_unbound h, hlength]
  · refine .inr ⟨_, ?_, .unresolved⟩
    apply refuses_stateless
    rintro arguments rfl
    exact resolve_of_ne_nil (List.ne_nil_of_length_pos hcount)

end Bindings

namespace Interface

variable {interface : Interface σ} {name : String}

theorem outcome_resolve (interface : Interface σ) (name : String) (arguments : List Float)
    (host : σ) : outcome (interface.context.resolve name arguments) host =
      match interface.accessor? name arguments with
      | some accessor => (.ok (accessor host).1, (accessor host).2)
      | none => (.error (interface.refusal name arguments), host) := by
  simp only [outcome, context]
  cases interface.accessor? name arguments <;> rfl

theorem accessor?_nil (interface : Interface σ) (name : String) : interface.accessor? name [] =
    (interface.properties[name]? <|> interface.fields[name]? <|>
      (interface.method? name 0).map fun call => call []) := rfl

theorem accessor?_of_ne_nil (interface : Interface σ) (name : String) {arguments : List Float}
    (h : arguments ≠ []) : interface.accessor? name arguments =
      (interface.method? name arguments.length).map fun call => call arguments := if_neg h

theorem isSome_accessor?_congr {arguments others : List Float}
    (h : arguments.length = others.length) :
    (interface.accessor? name arguments).isSome = (interface.accessor? name others).isSome := by
  rcases arguments with _ | ⟨x, arguments⟩
  · rw [List.eq_nil_of_length_eq_zero h.symm]
  · have hne : others ≠ [] := List.ne_nil_of_length_pos (h ▸ Nat.succ_pos _)
    rw [accessor?_of_ne_nil _ _ (List.cons_ne_nil _ _), accessor?_of_ne_nil _ _ hne, h,
      Option.isSome_map, Option.isSome_map]

theorem refusal_congr {arguments others : List Float} (h : arguments.length = others.length) :
    interface.refusal name arguments = interface.refusal name others := by
  simp only [refusal, ← List.length_eq_zero_iff, h]

theorem explains_refusal (arguments : List Float) :
    interface.context.Explains name arguments.length (interface.refusal name arguments) := by
  unfold refusal
  split
  · exact .unresolved
  · rename_i h
    exact .unknownFunction (List.length_pos_iff.mpr (not_or.mp h).1)

theorem predictable (interface : Interface σ) : interface.context.Predictable := by
  intro name count
  -- Any list of that many arguments tells for the others.
  obtain ⟨sample, rfl⟩ : ∃ sample : List Float, sample.length = count :=
    ⟨.replicate count 0, List.length_replicate⟩
  cases h : (interface.accessor? name sample).isSome with
  | true =>
    apply Or.inl
    intro arguments hlength host
    rw [← isSome_accessor?_congr hlength] at h
    obtain ⟨accessor, haccessor⟩ := Option.isSome_iff_exists.mp h
    exact ⟨_, _, by rw [outcome_resolve, haccessor]⟩
  | false =>
    refine .inr ⟨_, ?_, explains_refusal sample⟩
    intro arguments hlength host
    rw [← isSome_accessor?_congr hlength, Option.isSome_eq_false_iff,
      Option.isNone_iff_eq_none] at h
    rw [outcome_resolve, h, refusal_congr hlength]

end Interface

namespace Context

/-- The contexts of this library that give names a meaning. -/
inductive Definite : Context σ → Prop
  | standard : Definite Standard.context
  | bindings (values : Bindings) : Definite values.context
  | host (interface : Interface σ) : Definite interface.context

theorem Definite.predictable {c : Context σ} (h : c.Definite) : c.Predictable := by
  cases h with
  | standard => exact Standard.predictable
  | bindings values => exact values.predictable
  | host interface => exact interface.predictable

theorem Definite.knowsByName {c : Context σ} (h : c.Definite) : c.KnowsByName := by
  cases h with
  | standard => exact knowsByName_stateless _ _
  | bindings values => exact knowsByName_stateless _ _
  | host interface => exact ⟨interface.contains, fun _ _ => rfl⟩

end Context

theorem Cascade.predictable {xs : List (Context σ)} (hknows : ∀ c ∈ xs, c.KnowsByName)
    (h : ∀ c ∈ xs, c.Predictable) : (Cascade.context ⟨xs⟩).Predictable := by
  intro name count
  rcases exists_first name xs with ⟨before, c, after, rfl, hc, hbefore⟩ | hnone
  · have hresolve := funext fun arguments => resolve_of_first hknows hc hbefore arguments
    exact (h c (by simp) name count).congr hresolve.symm
  · refine .inr ⟨_, ?_, .unresolved⟩
    rintro arguments rfl state
    exact resolve_of_none hknows hnone arguments state

theorem Cascade.knowsByName {xs : List (Context σ)} (h : ∀ c ∈ xs, c.KnowsByName) :
    (Cascade.context ⟨xs⟩).KnowsByName := by
  obtain ⟨chosen, hchosen⟩ := Classical.axiomOfChoice (exists_choose?_eq h)
  exact ⟨fun name => (chosen name).isSome, fun name state => by
    simp only [context, knowsAny_eq, hchosen]⟩

namespace Layer

theorem contexts_eq (layers : List (Layer σ)) : contexts layers = layers.map context := by
  induction layers with
  | nil => rfl
  | cons layer layers ih => rw [contexts, ih, List.map_cons]

theorem leavesAll_eq (layers : List (Layer σ)) : leavesAll layers = layers.flatMap leaves := by
  induction layers with
  | nil => rfl
  | cons layer layers ih => rw [leavesAll, ih, List.flatMap_cons]

/-- What holds of the leaves of a description, and of each cascade of contexts of which it holds,
holds of its context. -/
theorem context_of_leaves {P : Context σ → Prop}
    (hcascade : ∀ xs, (∀ c ∈ xs, P c) → P (Cascade.context ⟨xs⟩)) (layer : Layer σ)
    (h : ∀ c ∈ layer.leaves, P c) : P layer.context := by
  induction layer using Layer.induct with
  | standard | bindings values | host interface | placeholder | other c =>
    exact h _ List.mem_cons_self
  | shared layer ih => exact ih h
  | cascade layers ih =>
    apply hcascade
    rw [contexts_eq]
    intro c hc
    obtain ⟨layer, hlayer, rfl⟩ := List.mem_map.mp hc
    apply ih layer hlayer
    intro leaf hleaf
    apply h
    rw [leaves, leavesAll_eq]
    exact List.mem_flatMap_of_mem hlayer hleaf

theorem predictable (layer : Layer σ)
    (h : ∀ c ∈ layer.leaves, c.KnowsByName ∧ c.Predictable) :
    layer.context.KnowsByName ∧ layer.context.Predictable := by
  refine layer.context_of_leaves (P := fun c => c.KnowsByName ∧ c.Predictable) ?_ h
  intro xs hxs
  have hknows : ∀ c ∈ xs, c.KnowsByName := fun c hc => (hxs c hc).1
  exact ⟨Cascade.knowsByName hknows, Cascade.predictable hknows fun c hc => (hxs c hc).2⟩

end Layer

end Formula
