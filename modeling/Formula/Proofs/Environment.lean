import Formula.Command
import Formula.Proofs.Borders
import Formula.Proofs.Replay
import Formula.Proofs.Substitution

/-! What names mean on the command line. The last binding of a name decides, blanks around it aside;
a bound name is a variable and no function any more, and all other names are the standard ones. What
is reported for the log changes no answer. -/

namespace Formula

open Answer (outcome Sim)

namespace Bindings

/-- The value that a name is bound to last. -/
def lastValue? (bindings : List (String × Float)) (name : String) : Option Float :=
  (bindings.reverse.find? fun binding => binding.1 = name).map Prod.snd

theorem lastValue?_cons (binding : String × Float) (bindings : List (String × Float))
    (name : String) : lastValue? (binding :: bindings) name =
      (lastValue? bindings name).or (if binding.1 = name then some binding.2 else none) := by
  rw [lastValue?, List.reverse_cons, List.find?_append, Option.map_or, ← lastValue?]
  by_cases h : binding.1 = name <;> simp [h]

theorem get?_insertMany (env : Bindings) (bindings : List (String × Float)) (name : String) :
    (env.insertMany bindings).get? name = (lastValue? bindings name).or (env.get? name) := by
  induction bindings generalizing env with
  | nil => rfl
  | cons binding bindings ih =>
    have hcons : env.insertMany (binding :: bindings) =
        (env.insert binding.1 binding.2).insertMany bindings := rfl
    rw [hcons, ih, get?_insert, lastValue?_cons, Option.or_assoc]
    split <;> rfl

theorem get?_ofList (bindings : List (String × Float)) (name : String) :
    (ofList bindings).get? name = lastValue? bindings name := by
  have hempty : (empty : Bindings).get? name = none := Std.TreeMap.getElem?_emptyc
  rw [ofList, get?_insertMany, hempty, Option.or_none]

end Bindings

namespace Context

variable {σ τ : Type}

theorem alike_stateless (resolve : String → List Float → Except NameError Float)
    (known : String → Bool) :
    (stateless resolve known : Context σ).Alike (fun _ _ => True)
      (stateless resolve known : Context τ) := by
  constructor
  · intro name arguments state state' _
    rw [outcome_stateless, outcome_stateless]
    exact ⟨rfl, trivial⟩
  · exact fun _ _ _ _ => ⟨rfl, trivial⟩

theorem Alike.noting {c : Context σ} {d : Context τ} (h : c.Alike (fun _ _ => True) d)
    (onResolve : String → List Float → σ → σ) (onKnows : String → σ → σ) :
    (c.noting onResolve onKnows).Alike (fun _ _ => True) d := by
  constructor
  · exact fun name arguments state state' _ => h.resolve name arguments _ state' trivial
  · exact fun name state state' _ => h.knows name _ state' trivial

end Context

namespace Standard

variable {σ : Type} {name : String}

theorem resolve_singleton_of_some {expected : Nat} (h : arity? name = some expected) :
    (Cascade.context ⟨[(context : Context σ)]⟩).resolve name = context.resolve name := by
  funext arguments state
  simp only [Cascade.context, Cascade.choose?, context, Context.stateless, h, Option.isSome_some]

theorem outcome_resolve_singleton_of_none (h : arity? name = none) (arguments : List Float)
    (state : σ) :
    outcome ((Cascade.context ⟨[(context : Context σ)]⟩).resolve name arguments) state =
      (.error (.unresolved name arguments.length), state) := by
  simp only [outcome, Cascade.context, Cascade.choose?, context, Context.stateless, h,
    Option.isSome_none]

end Standard

namespace Command

open Bindings (lastValue?)

/-- The text is a name, the first equality sign and a number, with blanks around both. -/
def Binds (text name : String) (value : Float) : Prop :=
  ∃ left right, text.toList = left ++ '=' :: right ∧ '=' ∉ left ∧
    name = String.ofList (Text.trim left) ∧ Number.read (Text.trim right) = .ok value

/-- The first equality sign is where a binding is cut. -/
theorem readBinding_of_split {text : String} {left right : List Char}
    (htext : text.toList = left ++ '=' :: right) (hleft : '=' ∉ left) :
    readBinding text = match Number.read (Text.trim right) with
      | .ok number => .ok (String.ofList (Text.trim left), number)
      | .error error => .error (.badValue (String.ofList left) error) := by
  have hhead : ∀ c ∈ ('=' :: right).head?, decide (c ≠ '=') = false := by simp
  have hall : ∀ c ∈ left, decide (c ≠ '=') = true := by
    intro c hc
    exact decide_eq_true fun heq => hleft (heq ▸ hc)
  rw [readBinding, htext]
  cases hread : Number.read (Text.trim right) <;>
    simp only [Token.takeWhile_append_of_head hhead, Token.dropWhile_append_of_head hhead,
      List.takeWhile_eq_self_iff.mpr hall, List.dropWhile_eq_nil_iff.mpr hall, List.nil_append,
      hread]

theorem readBinding_of_not_mem {text : String} (h : '=' ∉ text.toList) :
    readBinding text = .error (.noEquality text) := by
  have hall : ∀ c ∈ text.toList, decide (c ≠ '=') = true := by
    intro c hc
    exact decide_eq_true fun heq => h (heq ▸ hc)
  rw [readBinding]
  simp only [List.dropWhile_eq_nil_iff.mpr hall]

theorem readBinding_eq_ok_iff {text name : String} {value : Float} :
    readBinding text = .ok (name, value) ↔ Binds text name value := by
  constructor
  · intro h
    by_cases hmem : '=' ∈ text.toList
    · obtain ⟨left, right, htext, hleft⟩ := List.eq_append_cons_of_mem hmem
      rw [readBinding_of_split htext hleft] at h
      split at h
      · rename_i number hnumber
        obtain ⟨rfl, rfl⟩ := Prod.mk.inj (Except.ok.inj h)
        exact ⟨left, right, htext, hleft, rfl, hnumber⟩
      · cases h
    · rw [readBinding_of_not_mem hmem] at h
      cases h
  · rintro ⟨left, right, htext, hleft, rfl, hnumber⟩
    rw [readBinding_of_split htext hleft, hnumber]

theorem readBindings_eq_ok_iff {texts : List String} {bound : List (String × Float)} :
    readBindings texts = .ok bound ↔
      List.Forall₂ (fun text binding => Binds text binding.1 binding.2) texts bound := by
  induction texts generalizing bound with
  | nil =>
    rw [readBindings, List.forall₂_nil_left_iff]
    exact ⟨fun h => (Except.ok.inj h).symm, fun h => by rw [h]⟩
  | cons text texts ih =>
    rw [readBindings, List.forall₂_cons_left_iff]
    constructor
    · intro h
      split at h
      · cases h
      · rename_i binding hbinding
        split at h
        · cases h
        · rename_i rest hrest
          exact ⟨binding, rest, readBinding_eq_ok_iff.mp hbinding, ih.mp hrest,
            (Except.ok.inj h).symm⟩
    · rintro ⟨⟨name, value⟩, rest, hbinding, hrest, rfl⟩
      rw [readBinding_eq_ok_iff.mpr hbinding, ih.mpr hrest]

/-- What a name means if these bindings are given. -/
def meaning (bound : List (String × Float)) (name : String) (arguments : List Float) :
    Except NameError Float :=
  match lastValue? bound name with
  | some value =>
    if arguments = [] then .ok value else .error (.unresolved name arguments.length)
  | none => Standard.resolve name arguments

/-- The name has a value with so many arguments. -/
def HasValue (bound : List (String × Float)) (question : String × Nat) : Prop :=
  match lastValue? bound question.1 with
  | some _ => question.2 = 0
  | none => Standard.arity? question.1 = some question.2

/-- What is said of a name that has no value with so many arguments. -/
def blame (bound : List (String × Float)) (name : String) (count : Nat) : NameError :=
  match lastValue? bound name, Standard.arity? name with
  | none, some expected => .arityMismatch name expected count
  | _, _ => .unresolved name count

variable {bound : List (String × Float)} {name : String} {arguments : List Float}

theorem name_blame (bound : List (String × Float)) (name : String) (count : Nat) :
    (blame bound name count).name = name := by
  unfold blame
  split <;> rfl

theorem meaning_eq_ok_iff :
    (∃ value, meaning bound name arguments = .ok value) ↔
      HasValue bound (name, arguments.length) := by
  simp only [meaning, HasValue]
  cases lastValue? bound name with
  | some value => by_cases h : arguments = [] <;> simp [h]
  | none => exact Standard.resolve_eq_ok_iff name arguments

/-- The bindings and the standard names, without a word to the log. -/
def silent (bound : List (String × Float)) : Context Unit :=
  Cascade.context ⟨[(Bindings.ofList bound).context, Standard.context]⟩

theorem alike_environment (bound : List (String × Float)) :
    (environment bound).Alike (fun _ _ => True) (silent bound) := by
  have hbound := Context.alike_stateless (σ := Array Event) (τ := Unit)
    (Bindings.ofList bound).resolve fun name => (Bindings.ofList bound).values.contains name
  have hstandard := Context.alike_stateless (σ := Array Event) (τ := Unit)
    Standard.resolve fun name => (Standard.arity? name).isSome
  apply Context.Alike.noting
  apply Cascade.alike
  exact .cons (hbound.noting _ _) (.cons (hstandard.noting _ _) .nil)

theorem outcome_silent (bound : List (String × Float)) (name : String) (arguments : List Float) :
    (outcome ((silent bound).resolve name arguments) ()).1 =
      (meaning bound name arguments).mapError fun _ => blame bound name arguments.length := by
  have hget := Bindings.get?_ofList bound name
  cases hlast : lastValue? bound name with
  | some last =>
    rw [hlast] at hget
    rw [silent, Bindings.resolve_cons_of_bound hget, Bindings.context, Context.outcome_stateless]
    simp only [meaning, blame, hlast, Bindings.resolve, hget]
    cases arguments <;> rfl
  | none =>
    rw [hlast] at hget
    rw [silent, Bindings.resolve_cons_of_unbound hget]
    cases harity : Standard.arity? name with
    | some expected =>
      rw [Standard.resolve_singleton_of_some harity, Standard.context, Context.outcome_stateless]
      simp only [meaning, blame, hlast, harity]
      by_cases hcount : expected = arguments.length
      · obtain ⟨value, hvalue⟩ := (Standard.resolve_eq_ok_iff name arguments).mpr (hcount ▸ harity)
        rw [hvalue]
        rfl
      · rw [Standard.resolve_of_mismatch harity hcount]
        rfl
    | none =>
      rw [Standard.outcome_resolve_singleton_of_none harity]
      simp only [meaning, blame, hlast, harity, Standard.resolve_of_none harity]
      split <;> rfl

theorem silent_eq_ok_iff {value : Float} : (outcome ((silent bound).resolve name arguments) ()).1 =
    .ok value ↔ meaning bound name arguments = .ok value := by
  rw [outcome_silent]
  cases meaning bound name arguments <;> simp [Except.mapError]

theorem eq_blame_of_silent {error : NameError}
    (h : (outcome ((silent bound).resolve name arguments) ()).1 = .error error) :
    error = blame bound name arguments.length := by
  rw [outcome_silent] at h
  cases hmeant : meaning bound name arguments with
  | ok value => simp [hmeant, Except.mapError] at h
  | error other => simpa [hmeant, Except.mapError] using h.symm

/-- The names as they are meant. -/
def scope (bound : List (String × Float)) : Context Unit :=
  .stateless (meaning bound) fun name =>
    (lastValue? bound name).isSome || (Standard.arity? name).isSome

variable {t : Node}

theorem evaluate_of_hasValue (h : ∀ question ∈ t.questions, HasValue bound question) :
    ∃ value, (outcome (t.evaluate (scope bound)) ()).1 = .ok value ∧
      ∀ events, (outcome (t.evaluate (environment bound)) events).1 = .ok value := by
  have hsim : Sim (fun _ _ => True) (t.evaluate (environment bound))
      (t.evaluate (scope bound)) := by
    apply t.sim_evaluate
    intro name arguments hquestion events _ _
    obtain ⟨value, hvalue⟩ := meaning_eq_ok_iff.mpr (h _ hquestion)
    refine ⟨?_, trivial⟩
    rw [((alike_environment bound).resolve name arguments events () trivial).1, scope,
      Context.outcome_stateless, silent_eq_ok_iff.mpr hvalue, hvalue]
  rcases hresult : outcome (t.evaluate (scope bound)) () with ⟨⟨error⟩ | ⟨value⟩, final⟩
  · exfalso
    obtain ⟨answers, name, arguments, after, -, hquestions, -, hreplay⟩ :=
      Node.exists_failure hresult
    obtain ⟨state, hanswer⟩ := hreplay.exists_of_mem (List.mem_append_right _ List.mem_cons_self)
    rw [scope, Context.outcome_stateless] at hanswer
    obtain ⟨value, hvalue⟩ := meaning_eq_ok_iff.mpr
      (h (name, arguments.length) (by rw [hquestions]; simp))
    cases hanswer.symm.trans hvalue
  · exact ⟨value, rfl, fun events => by rw [(hsim events () trivial).1, hresult]⟩

/-- A tree with a name that has no value has the first such name to blame. -/
theorem evaluate_of_not_hasValue (h : ∃ question ∈ t.questions, ¬ HasValue bound question) :
    ∃ before name count after,
      t.questions = before ++ (name, count) :: after ∧
      (∀ question ∈ before, HasValue bound question) ∧ ¬ HasValue bound (name, count) ∧
      ∀ events, (outcome (t.evaluate (environment bound)) events).1 =
        .error (blame bound name count) := by
  have hsim := (alike_environment bound).evaluate t
  have hvalues {answers : List Resolution} {final : Unit}
      (hreplay : Replay (silent bound) () answers final) {r : Resolution} (hr : r ∈ answers) :
      r.Succeeds ↔ HasValue bound r.question := by
    obtain ⟨state, hanswer⟩ := hreplay.exists_of_mem hr
    rw [Resolution.question, ← meaning_eq_ok_iff, Resolution.Succeeds, ← hanswer]
    exact exists_congr fun value => silent_eq_ok_iff
  rcases hresult : outcome (t.evaluate (silent bound)) () with ⟨⟨error⟩ | ⟨value⟩, final⟩
  · obtain ⟨answers, name, arguments, after, -, hquestions, hanswers, hreplay⟩ :=
      Node.exists_failure hresult
    have hlast : (⟨name, arguments, .error error⟩ : Resolution) ∈
        answers ++ [⟨name, arguments, .error error⟩] :=
      List.mem_append_right _ List.mem_cons_self
    obtain ⟨state, hanswer⟩ := hreplay.exists_of_mem hlast
    obtain rfl : error = blame bound name arguments.length := eq_blame_of_silent hanswer
    refine ⟨_, name, arguments.length, after, hquestions, ?_, ?_, ?_⟩
    · intro question hquestion
      obtain ⟨r, hr, rfl⟩ := List.mem_map.mp hquestion
      exact (hvalues hreplay (List.mem_append_left _ hr)).mp (hanswers r hr)
    · intro hvalue
      obtain ⟨value, herror⟩ := (hvalues hreplay hlast).mpr hvalue
      cases herror
    · exact fun events => by rw [(hsim events () trivial).1, hresult]
  · exfalso
    obtain ⟨answers, hquestions, hanswers, hreplay⟩ := Node.exists_success hresult
    obtain ⟨question, hquestion, hno⟩ := h
    rw [hquestions] at hquestion
    obtain ⟨r, hr, rfl⟩ := List.mem_map.mp hquestion
    exact hno ((hvalues hreplay hr).mp (hanswers r hr))

theorem resolve_environment_congr {other : List (String × Float)}
    (h : lastValue? other name = lastValue? bound name) :
    (environment other).resolve name = (environment bound).resolve name := by
  have hget : (Bindings.ofList other).get? name = (Bindings.ofList bound).get? name := by
    rw [Bindings.get?_ofList, Bindings.get?_ofList, h]
  funext arguments events
  have hresolve : (Bindings.ofList other).resolve name arguments =
      (Bindings.ofList bound).resolve name arguments := by
    simp only [Bindings.resolve, hget]
  simp only [environment, reported, reportedChoice, Context.noting, Cascade.context,
    List.mapIdx_cons, Cascade.choose?, Bindings.knows_context, hget]
  cases (Bindings.ofList bound).get? name with
  | some value => simp only [Option.isSome_some, Bindings.context, Context.stateless, hresolve]
  | none => rfl

end Command

end Formula
