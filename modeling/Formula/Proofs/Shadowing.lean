import Formula.Proofs.History
import Formula.Proofs.Machine
import Mathlib.Data.List.Forall2

/-! What a cascade shows of its contexts to a tree. A name belongs to the first context that knows
it, so that two cascades in which the names of a tree belong to the same contexts give the tree the
same value by the same questions. A context that is added behind the others is not even asked
whether it knows a name, as long as one before it does. -/

namespace Formula

open Answer (outcome Sim)
open Machine (run runs step ask proceed)

variable {σ τ ε : Type}

theorem Answer.Sim.refl {α : Type} (x : Answer σ α) : Sim Eq x x := by
  rintro state _ rfl
  exact ⟨rfl, rfl⟩

theorem Answer.Sim.eq {α : Type} {x y : Answer σ α} (h : Sim Eq x y) : x = y := by
  apply Answer.ext
  intro state
  obtain ⟨hanswer, hstate⟩ := h state state rfl
  exact Prod.ext hanswer hstate

namespace Node

def names (t : Node) : List String := t.questions.map Prod.fst

@[simp] theorem names_literal (value : Float) : (literal value).names = [] := rfl

@[simp] theorem names_var (name : String) : (var name).names = [name] := rfl

@[simp] theorem names_call (name : String) (arguments : List Node) :
    (call name arguments).names = arguments.flatMap names ++ [name] := by
  rw [names, questions_call, List.map_append, List.map_flatMap]
  rfl

@[simp] theorem names_unary (op : UnaryOp) (operand : Node) :
    (unary op operand).names = operand.names := by simp [names]

@[simp] theorem names_binary (op : BinaryOp) (lhs rhs : Node) :
    (binary op lhs rhs).names = lhs.names ++ rhs.names := by simp [names]

@[simp] theorem names_ternary (op : TernaryOp) (first second third : Node) :
    (ternary op first second third).names = first.names ++ second.names ++ third.names := by
  simp [names]

theorem evaluate_congr {c d : Context σ} {t : Node}
    (h : ∀ name ∈ t.names, c.resolve name = d.resolve name) : t.evaluate c = t.evaluate d := by
  apply Sim.eq
  apply t.sim_evaluate
  intro name arguments hq
  rw [h name (List.mem_map_of_mem hq)]
  exact .refl _

end Node

namespace Machine

variable {c d : Context σ} {P : String → Prop}

theorem proceed_inj {x y : Except NameError Float × σ × List Resolution}
    (h : proceed (fun value s => .done ⟨[value], s.1, s.2⟩) x =
      proceed (fun value s => .done ⟨[value], s.1, s.2⟩) y) : x = y := by
  rcases x with ⟨⟨error⟩ | ⟨value⟩, state, answers⟩ <;>
    rcases y with ⟨⟨error'⟩ | ⟨value'⟩, state', answers'⟩ <;>
    simp_all [proceed]

section Until

/-! Two contexts that resolve some names alike, where the first of them fails on all others. -/

variable (hsame : ∀ name, P name → d.resolve name = c.resolve name)
  (hfail : ∀ name, ¬ P name → ∀ arguments state, ∃ error final,
    outcome (c.resolve name arguments) state = (.error error, final))

include hsame hfail

theorem ask_until (name : String) (arguments : List Float) (m : Machine σ) :
    ask d name arguments m = ask c name arguments m ∨ ∃ error final last, ¬ P last.name ∧
      ask c name arguments m = .failed error final (m.answers ++ [last]) := by
  by_cases hname : P name
  · left
    rw [ask, ask, hsame name hname]
  · right
    obtain ⟨error, final, hanswer⟩ := hfail name hname arguments m.state
    exact ⟨error, final, ⟨name, arguments, .error error⟩, hname, by rw [ask, hanswer]⟩

theorem step_until (instruction : Instruction) (m : Machine σ) :
    step d instruction m = step c instruction m ∨ ∃ error final last, ¬ P last.name ∧
      step c instruction m = .failed error final (m.answers ++ [last]) := by
  cases instruction with
  | literal value => exact .inl rfl
  | unary op => rcases m with ⟨_ | ⟨x, stack⟩, state, answers⟩ <;> exact .inl rfl
  | binary op => rcases m with ⟨_ | ⟨y, _ | ⟨x, stack⟩⟩, state, answers⟩ <;> exact .inl rfl
  | ternary op =>
    rcases m with ⟨_ | ⟨z, _ | ⟨y, _ | ⟨x, stack⟩⟩⟩, state, answers⟩ <;> exact .inl rfl
  | var name => exact ask_until hsame hfail name [] m
  | call name count =>
    rw [step, step]
    split
    · exact ask_until hsame hfail name _ { m with stack := m.stack.drop count }
    · exact .inl rfl

/-- The machine does not tell the contexts apart before it comes to one of the other names. -/
theorem run_until (instructions : List Instruction) (m : Machine σ) :
    run d instructions m = run c instructions m ∨ ∃ error final before last, ¬ P last.name ∧
      run c instructions m = .failed error final (before ++ [last]) := by
  induction instructions generalizing m with
  | nil => exact .inl rfl
  | cons instruction rest ih =>
    rw [run, run]
    rcases step_until hsame hfail instruction m with heq | ⟨error, final, last, hlast, hstep⟩
    · rw [heq]
      cases step c instruction m with
      | done next => exact ih next
      | failed error state answers => exact .inl rfl
      | stuck => exact .inl rfl
    · rw [hstep]
      exact .inr ⟨error, final, m.answers, last, hlast, rfl⟩

end Until

end Machine

namespace Context

/-- The contexts answer alike in states that are related, and lead to related states. -/
structure Alike (R : σ → τ → Prop) (c : Context σ) (d : Context τ) : Prop where
  resolve : ∀ name arguments, Sim R (c.resolve name arguments) (d.resolve name arguments)
  knows : ∀ name s t, R s t → (c.knows name s).1 = (d.knows name t).1 ∧
    R (c.knows name s).2 (d.knows name t).2

theorem Alike.recorded {R : σ → τ → Prop} {c : Context σ} {d : Context τ} (h : c.Alike R d) :
    c.recorded.Alike (fun s t => R s.1 t.1 ∧ s.2 = t.2) d.recorded := by
  constructor
  · rintro name arguments ⟨s, answers⟩ ⟨t, _⟩ ⟨hst, rfl⟩
    obtain ⟨hanswer, hstate⟩ := h.resolve name arguments s t hst
    rw [outcome_recording, outcome_recording]
    exact ⟨hanswer, hstate,
      congrArg (fun answer => answers ++ [⟨name, arguments, answer⟩]) hanswer⟩
  · rintro name ⟨s, answers⟩ ⟨t, _⟩ ⟨hst, rfl⟩
    obtain ⟨hanswer, hstate⟩ := h.knows name s t hst
    exact ⟨hanswer, hstate, rfl⟩

theorem Alike.evaluate {R : σ → τ → Prop} {c : Context σ} {d : Context τ} (h : c.Alike R d)
    (t : Node) : Sim R (t.evaluate c) (t.evaluate d) :=
  t.sim_evaluate fun name arguments _ => h.resolve name arguments

inductive Question where
  | resolve (name : String) (arguments : List Float)
  | knows (name : String)

def overheard (entry : Question → ε) (c : Context σ) : Context (σ × List ε) where
  resolve name arguments := fun (state, entries) =>
    match c.resolve name arguments state with
    | .ok value state => .ok value (state, entries ++ [entry (.resolve name arguments)])
    | .error error state => .error error (state, entries ++ [entry (.resolve name arguments)])
  knows name := fun (state, entries) =>
    match c.knows name state with
    | (known, state) => (known, state, entries ++ [entry (.knows name)])

theorem outcome_overheard (entry : Question → ε) (c : Context σ) (name : String)
    (arguments : List Float) (state : σ) (entries : List ε) :
    outcome ((c.overheard entry).resolve name arguments) (state, entries) =
      match outcome (c.resolve name arguments) state with
      | (answer, state) => (answer, state, entries ++ [entry (.resolve name arguments)]) := by
  simp only [outcome, overheard]
  cases c.resolve name arguments state <;> rfl

theorem alike_overheard (entry : Question → ε) (c : Context σ) :
    (c.overheard entry).Alike (fun s t => s.1 = t) c := by
  constructor
  · rintro name arguments ⟨state, entries⟩ _ rfl
    rw [outcome_overheard]
    exact ⟨rfl, rfl⟩
  · rintro name ⟨state, entries⟩ _ rfl
    exact ⟨rfl, rfl⟩

theorem keeps_overheard {entry : Question → ε} {c : Context σ} {P : ε → Prop}
    (h : ∀ q, P (entry q)) : (c.overheard entry).Keeps fun state => ∀ e ∈ state.2, P e := by
  constructor
  · rintro name arguments ⟨state, entries⟩ hentries
    rw [outcome_overheard]
    exact List.forall_mem_append.mpr ⟨hentries, List.forall_mem_singleton.mpr (h _)⟩
  · rintro name ⟨state, entries⟩ hentries
    exact List.forall_mem_append.mpr ⟨hentries, List.forall_mem_singleton.mpr (h _)⟩

end Context

namespace Cascade

open Context (claims_recording)

section Alike

variable {R : σ → τ → Prop} {xs : List (Context σ)} {ys : List (Context τ)}

theorem choose?_alike (h : List.Forall₂ (Context.Alike R) xs ys) (name : String) {s : σ} {t : τ}
    (hst : R s t) :
    Option.Rel (Context.Alike R) (choose? name xs s).1 (choose? name ys t).1 ∧
      R (choose? name xs s).2 (choose? name ys t).2 := by
  induction h generalizing s t with
  | nil => exact ⟨.none, hst⟩
  | cons hx _ ih =>
    obtain ⟨hknown, hnext⟩ := hx.knows name s t hst
    rw [choose?, choose?]
    generalize Context.knows _ name s = p at hknown hnext
    generalize Context.knows _ name t = q at hknown hnext
    obtain ⟨known, s'⟩ := p
    obtain ⟨_, t'⟩ := q
    obtain rfl : known = _ := hknown
    cases known with
    | false => exact ih hnext
    | true => exact ⟨.some hx, hnext⟩

theorem alike (h : List.Forall₂ (Context.Alike R) xs ys) :
    (Cascade.context ⟨xs⟩).Alike R (Cascade.context ⟨ys⟩) := by
  constructor
  · intro name arguments s t hst
    obtain ⟨hchosen, hnext⟩ := choose?_alike h name hst
    simp only [outcome, context]
    generalize choose? name xs s = p at hchosen hnext
    generalize choose? name ys t = q at hchosen hnext
    obtain ⟨chosen, s'⟩ := p
    obtain ⟨chosen', t'⟩ := q
    cases hchosen with
    | some hcd => exact hcd.resolve name arguments s' t' hnext
    | none => exact ⟨rfl, hnext⟩
  · intro name s t hst
    obtain ⟨hchosen, hnext⟩ := choose?_alike h name hst
    simp only [context, knowsAny_eq]
    generalize choose? name xs s = p at hchosen hnext
    generalize choose? name ys t = q at hchosen hnext
    obtain ⟨chosen, s'⟩ := p
    obtain ⟨chosen', t'⟩ := q
    cases hchosen <;> exact ⟨rfl, hnext⟩

end Alike

open Classical in
/-- The context to which a name belongs: the first of the list that knows it. -/
noncomputable def first? (name : String) (xs : List (Context σ)) : Option (Context σ) :=
  xs.find? fun c => c.Claims name

section First

variable {xs ys : List (Context σ)} {name : String}

theorem choose?_eq_first? (h : ∀ x ∈ xs, x.KnowsByName) (state : σ) :
    choose? name xs state = (first? name xs, state) := by
  induction xs with
  | nil => rfl
  | cons x xs ih =>
    rw [choose?, first?, List.find?_cons]
    rcases (h x List.mem_cons_self).knows_eq name with ⟨hclaims, hknows⟩ | ⟨hclaims, hknows⟩
    · simp only [hknows, hclaims, decide_true]
    · simp only [hknows, hclaims, decide_false]
      exact ih fun y hy => h y (List.mem_cons_of_mem x hy)

theorem resolve_congr (hx : ∀ x ∈ xs, x.KnowsByName) (hy : ∀ y ∈ ys, y.KnowsByName)
    (h : first? name xs = first? name ys) :
    (Cascade.context ⟨xs⟩).resolve name = (Cascade.context ⟨ys⟩).resolve name := by
  funext arguments state
  simp only [context, choose?_eq_first? hx, choose?_eq_first? hy, h]

theorem first?_append_cons_of_not_claims {c : Context σ} (h : ¬ c.Claims name) :
    first? name (xs ++ c :: ys) = first? name (xs ++ ys) := by
  simp [first?, List.find?_append, h]

end First

/-- The same contexts, each of which adds itself and its answer to a list beside the state. -/
def attributed (xs : List (Context σ)) : List (Context (σ × List (Context σ × Resolution))) :=
  xs.map fun c => c.recording fun r => (c, r)

theorem first?_attributed (name : String) (xs : List (Context σ)) :
    first? name (attributed xs) =
      (first? name xs).map fun c => c.recording fun r => (c, r) := by
  rw [first?, attributed, List.find?_map, first?]
  congr 2
  funext c
  exact decide_eq_decide.mpr (claims_recording _ name)

theorem knowsByName_of_mem_attributed {xs : List (Context σ)} (h : ∀ x ∈ xs, x.KnowsByName) :
    ∀ x ∈ attributed xs, x.KnowsByName := by
  intro x hx
  obtain ⟨c, hc, rfl⟩ := List.mem_map.mp hx
  exact (h c hc).recording _

/-- If the names of a tree belong to the same contexts in both lists, it has the same value, and
the same contexts are asked the same questions. -/
theorem evaluate_congr_first {xs ys : List (Context σ)} {t : Node}
    (hx : ∀ x ∈ xs, x.KnowsByName) (hy : ∀ y ∈ ys, y.KnowsByName)
    (h : ∀ name ∈ t.names, first? name xs = first? name ys) :
    t.evaluate (Cascade.context ⟨xs⟩) = t.evaluate (Cascade.context ⟨ys⟩) ∧
      t.evaluate (Cascade.context ⟨attributed xs⟩) =
        t.evaluate (Cascade.context ⟨attributed ys⟩) := by
  constructor
  · exact Node.evaluate_congr fun name hname => resolve_congr hx hy (h name hname)
  · apply Node.evaluate_congr
    intro name hname
    apply resolve_congr (knowsByName_of_mem_attributed hx) (knowsByName_of_mem_attributed hy)
    rw [first?_attributed, first?_attributed, h name hname]

theorem contexts_foldl_push (cascade : Cascade σ) (ys : List (Context σ)) :
    (ys.foldl push cascade).contexts = cascade.contexts ++ ys := by
  induction ys generalizing cascade with
  | nil => exact (List.append_nil _).symm
  | cons y ys ih =>
    rw [List.foldl_cons, ih, push, List.append_assoc]
    rfl

/-- The same contexts, each of which adds its place and each question it is asked to a list beside
the state. -/
def overheard (xs : List (Context σ)) : List (Context (σ × List (Nat × Context.Question))) :=
  xs.mapIdx fun i c => c.overheard fun q => (i, q)

theorem alike_of_mapIdx {R : σ → τ → Prop} {f : Nat → Context τ → Context σ}
    (h : ∀ i c, (f i c).Alike R c) (xs : List (Context τ)) :
    List.Forall₂ (Context.Alike R) (xs.mapIdx f) xs := by
  induction xs generalizing f with
  | nil => exact .nil
  | cons x xs ih =>
    rw [List.mapIdx_cons]
    exact .cons (h 0 x) (ih fun i => h (i + 1))

theorem forall₂_alike_overheard (xs : List (Context σ)) :
    List.Forall₂ (Context.Alike fun s t => s.1 = t) (overheard xs) xs :=
  alike_of_mapIdx (fun i c => c.alike_overheard fun q => (i, q)) xs

theorem alike_overheard (xs : List (Context σ)) :
    (Cascade.context ⟨overheard xs⟩).Alike (fun s t => s.1 = t) (Cascade.context ⟨xs⟩) :=
  alike (forall₂_alike_overheard xs)

section Pushed

variable {xs : List (Context σ)} {name : String}

theorem isSome_choose?_overheard (hx : ∀ x ∈ xs, x.KnowsByName)
    (h : ∃ x ∈ xs, x.Claims name) (state : σ × List (Nat × Context.Question)) :
    (choose? name (overheard xs) state).1.isSome := by
  have hrel := (choose?_alike (forall₂_alike_overheard xs) name (s := state) rfl).1
  have hsome : (first? name xs).isSome := by
    rw [first?, List.find?_isSome]
    simpa using h
  rw [choose?_eq_first? hx] at hrel
  generalize (choose? name (overheard xs) state).1 = chosen at hrel
  generalize first? name xs = first at hrel hsome
  cases hrel with
  | some _ => rfl
  | none => exact hsome

theorem resolve_overheard_append (hx : ∀ x ∈ xs, x.KnowsByName) (h : ∃ x ∈ xs, x.Claims name)
    (ys : List (Context σ)) :
    (Cascade.context ⟨overheard (xs ++ ys)⟩).resolve name =
      (Cascade.context ⟨overheard xs⟩).resolve name := by
  funext arguments state
  have hsome := isSome_choose?_overheard hx h state
  simp only [context]
  rw [overheard, List.mapIdx_append, ← overheard, choose?_append]
  generalize choose? name (overheard xs) state = p at hsome
  obtain ⟨_ | c, final⟩ := p
  · cases hsome
  · rfl

theorem resolve_overheard_of_none (hx : ∀ x ∈ xs, x.KnowsByName)
    (h : ¬ ∃ x ∈ xs, x.Claims name) (arguments : List Float)
    (state : σ × List (Nat × Context.Question)) : ∃ error final,
    outcome ((Cascade.context ⟨overheard xs⟩).resolve name arguments) state =
      (.error error, final) := by
  have hanswer := ((alike_overheard xs).resolve name arguments state state.1 rfl).1
  rw [resolve_of_none hx (by simpa using h)] at hanswer
  exact ⟨_, _, Prod.ext hanswer rfl⟩

/-- The tree has a value, or the name that has none is known to one of the contexts. -/
def Settles (xs : List (Context σ)) (t : Node) (state : σ) : Prop :=
  match outcome (t.evaluate (Cascade.context ⟨xs⟩).recorded) (state, []) with
  | (.ok _, _) => True
  | (.error _, _, answers) => ∃ last ∈ answers.getLast?, ∃ x ∈ xs, x.Claims last.name

theorem Settles.evaluate_append {t : Node} {state : σ} (h : Settles xs t state)
    (hx : ∀ x ∈ xs, x.KnowsByName) (ys : List (Context σ)) :
    outcome (t.evaluate (Cascade.context ⟨overheard (xs ++ ys)⟩)) (state, []) =
      outcome (t.evaluate (Cascade.context ⟨overheard xs⟩)) (state, []) := by
  have hrun := Machine.run_until (P := fun name => ∃ x ∈ xs, x.Claims name)
    (fun name hname => resolve_overheard_append hx hname ys)
    (fun name hname => resolve_overheard_of_none hx hname) t.code ⟨[], (state, []), []⟩
  have hruns (c : Context (σ × List (Nat × Context.Question))) :
      run c t.code ⟨[], (state, []), []⟩ = _ := runs c t [] [] ((state, []), [])
  rw [hruns, hruns] at hrun
  rcases hrun with heq | ⟨error, final, before, last, hlast, hfailed⟩
  · rcases hrecord : outcome (t.evaluate (Cascade.context ⟨overheard xs⟩).recorded)
      ((state, []), []) with ⟨result, final, answers⟩
    have heq := Machine.proceed_inj heq
    rw [hrecord] at heq
    rw [Node.outcome_evaluate_of_recording heq, Node.outcome_evaluate_of_recording hrecord]
  · -- The name that has no value without the context behind is not known to the others.
    exfalso
    obtain ⟨hanswer, hstate, hanswers⟩ :=
      (alike_overheard xs).recorded.evaluate t ((state, []), []) (state, []) ⟨rfl, rfl⟩
    rcases hrecord : outcome (t.evaluate (Cascade.context ⟨overheard xs⟩).recorded)
      ((state, []), []) with ⟨⟨other⟩ | ⟨value⟩, final', answers⟩
    · rw [hrecord] at hfailed hanswer hanswers
      cases hfailed
      rw [Settles] at h
      rcases hplain : outcome (t.evaluate (Cascade.context ⟨xs⟩).recorded) (state, []) with
        ⟨result, final'', answers'⟩
      rw [hplain] at hanswer hanswers h
      obtain rfl : Except.error error = result := hanswer
      obtain rfl : before ++ [last] = answers' := hanswers
      obtain ⟨other, hother, hclaims⟩ := h
      obtain rfl : last = other := by simpa using hother
      exact hlast hclaims
    · rw [hrecord] at hfailed
      cases hfailed

theorem place_lt_of_mem_overheard (xs : List (Context σ)) (t : Node) (state : σ) :
    ∀ entry ∈ (outcome (t.evaluate (Cascade.context ⟨overheard xs⟩)) (state, [])).2.2,
      entry.1 < xs.length := by
  have hkeeps : (Cascade.context ⟨overheard xs⟩).Keeps fun state =>
      ∀ entry ∈ state.2, entry.1 < xs.length := by
    apply Cascade.keeps
    intro c hc
    obtain ⟨i, hi, rfl⟩ := List.mem_mapIdx.mp hc
    exact Context.keeps_overheard fun _ => hi
  exact t.keeps_evaluate hkeeps.1 (List.forall_mem_nil _)

theorem Settles.outcome_append {t : Node} {state : σ} (h : Settles xs t state)
    (hx : ∀ x ∈ xs, x.KnowsByName) (ys : List (Context σ)) :
    outcome (t.evaluate (Cascade.context ⟨xs ++ ys⟩)) state =
      outcome (t.evaluate (Cascade.context ⟨xs⟩)) state := by
  obtain ⟨hanswer, hstate⟩ := (alike_overheard xs).evaluate t (state, []) state rfl
  obtain ⟨hanswer', hstate'⟩ := (alike_overheard (xs ++ ys)).evaluate t (state, []) state rfl
  have heq := h.evaluate_append hx ys
  apply Prod.ext
  · rw [← hanswer, ← hanswer', heq]
  · rw [← hstate, ← hstate', heq]

end Pushed

/-- What a tree sees of a cascade is to which contexts its names belong. Lists in which they belong
to the same contexts give the tree the same outcome, by the same questions to the same contexts; a
context that knows none of the names can be put in and taken out anywhere; and contexts behind
those that settle the tree are not asked anything. -/
theorem evaluate_first :
    (∀ (xs ys : List (Context σ)) (t : Node), (∀ x ∈ xs, x.KnowsByName) →
      (∀ y ∈ ys, y.KnowsByName) → (∀ name ∈ t.names, first? name xs = first? name ys) →
      t.evaluate (Cascade.context ⟨xs⟩) = t.evaluate (Cascade.context ⟨ys⟩) ∧
      t.evaluate (Cascade.context ⟨attributed xs⟩) =
        t.evaluate (Cascade.context ⟨attributed ys⟩)) ∧
    (∀ (before after : List (Context σ)) (c : Context σ) (t : Node),
      (∀ x ∈ before ++ c :: after, x.KnowsByName) → (∀ name ∈ t.names, ¬ c.Claims name) →
      t.evaluate (Cascade.context ⟨before ++ c :: after⟩) =
        t.evaluate (Cascade.context ⟨before ++ after⟩) ∧
      t.evaluate (Cascade.context ⟨attributed (before ++ c :: after)⟩) =
        t.evaluate (Cascade.context ⟨attributed (before ++ after)⟩)) ∧
    ∀ (cascade : Cascade σ) (ys : List (Context σ)) (t : Node) (state : σ),
      (∀ x ∈ cascade.contexts, x.KnowsByName) → Settles cascade.contexts t state →
      outcome (t.evaluate (ys.foldl push cascade).context) state =
        outcome (t.evaluate cascade.context) state ∧
      outcome (t.evaluate (Cascade.context ⟨overheard (ys.foldl push cascade).contexts⟩))
          (state, []) =
        outcome (t.evaluate (Cascade.context ⟨overheard cascade.contexts⟩)) (state, []) ∧
      ∀ entry ∈ (outcome (t.evaluate
          (Cascade.context ⟨overheard (ys.foldl push cascade).contexts⟩)) (state, [])).2.2,
        entry.1 < cascade.contexts.length := by
  refine ⟨fun xs ys t => evaluate_congr_first, ?_, ?_⟩
  · intro before after c t hknows hc
    apply evaluate_congr_first hknows
    · intro x hx
      rw [List.mem_append] at hx
      exact hknows x (by rw [List.mem_append, List.mem_cons]; tauto)
    · exact fun name hname => first?_append_cons_of_not_claims (hc name hname)
  · rintro ⟨xs⟩ ys t state hx hsettles
    have hpushed : ys.foldl push ⟨xs⟩ = ⟨xs ++ ys⟩ :=
      congrArg Cascade.mk (contexts_foldl_push ⟨xs⟩ ys)
    rw [hpushed]
    have hsame := hsettles.evaluate_append hx ys
    refine ⟨hsettles.outcome_append hx ys, hsame, ?_⟩
    rw [hsame]
    exact place_lt_of_mem_overheard xs t state

def counter (known : String) : Context Nat where
  resolve _ _ := fun count => .ok count.toFloat (count + 1)
  knows name := fun count => (name = known, count)

def sineOfTwo : Node := .call "sin" [.var "x", .binary .add (.var "x") (.literal 1)]

theorem knowsByName_counter (known : String) : (counter known).KnowsByName :=
  ⟨fun name => name = known, fun _ _ => rfl⟩

theorem evaluate_first_sineOfTwo :
    (∀ c ∈ [counter "x", counter "y", Standard.context], c.KnowsByName) ∧
    (∀ name ∈ sineOfTwo.names, first? name [counter "x", Standard.context] =
      first? name [Standard.context, counter "x"]) ∧
    (∀ name ∈ sineOfTwo.names, ¬ (counter "y").Claims name) ∧
    Settles [counter "x", Standard.context] sineOfTwo 0 ∧
    sineOfTwo.evaluate (Cascade.context ⟨[counter "x", Standard.context]⟩) =
      sineOfTwo.evaluate (Cascade.context ⟨[Standard.context, counter "x"]⟩) ∧
    sineOfTwo.evaluate (Cascade.context ⟨[counter "x", counter "y", Standard.context]⟩) =
      sineOfTwo.evaluate (Cascade.context ⟨[counter "x", Standard.context]⟩) ∧
    outcome (sineOfTwo.evaluate
        (Cascade.context ⟨[counter "x", Standard.context, counter "x", .placeholder]⟩)) 0 =
      outcome (sineOfTwo.evaluate (Cascade.context ⟨[counter "x", Standard.context]⟩)) 0 := by
  have hsingle : ∀ c ∈ [(Standard.context : Context Nat)], c.KnowsByName :=
    List.forall_mem_singleton.mpr (Context.knowsByName_stateless _ _)
  have htwo : ∀ c ∈ [counter "x", Standard.context], c.KnowsByName :=
    List.forall_mem_cons.mpr ⟨knowsByName_counter "x", hsingle⟩
  have hknows : ∀ c ∈ [counter "x", counter "y", Standard.context], c.KnowsByName :=
    List.forall_mem_cons.mpr ⟨knowsByName_counter "x",
      List.forall_mem_cons.mpr ⟨knowsByName_counter "y", hsingle⟩⟩
  have hswapped : ∀ c ∈ [Standard.context, counter "x"], c.KnowsByName :=
    fun c hc => htwo c (List.mem_reverse.mp hc)
  have hcounter (known name : String) : (counter known).Claims name ↔ name = known := by
    simp [Context.Claims, counter]
  have hstandard (name : String) : (Standard.context : Context Nat).Claims name ↔
      (Standard.arity? name).isSome := by
    simp [Context.Claims, Standard.context, Context.stateless]
  have hfirst : ∀ name ∈ sineOfTwo.names, first? name [counter "x", Standard.context] =
      first? name [Standard.context, counter "x"] := by
    intro name hname
    have hname : name = "x" ∨ name = "sin" := by
      revert name
      decide
    rcases hname with rfl | rfl <;>
      simp [first?, hcounter, hstandard, Standard.arity?]
  have hy : ∀ name ∈ sineOfTwo.names, ¬ (counter "y").Claims name := by
    intro name hname
    rw [hcounter]
    revert name
    decide
  have hsettles : Settles [counter "x", Standard.context] sineOfTwo 0 := by
    refine ⟨⟨"sin", [Float.ofNat 0, Float.ofNat 1 + 1], .error (.arityMismatch "sin" 1 2)⟩, ?_,
      Standard.context, by simp, (hstandard "sin").mpr rfl⟩
    rfl
  obtain ⟨hlists, hinsert, hpush⟩ := evaluate_first (σ := Nat)
  exact ⟨hknows, hfirst, hy, hsettles, (hlists _ _ sineOfTwo htwo hswapped hfirst).1,
    (hinsert [counter "x"] [Standard.context] (counter "y") sineOfTwo hknows hy).1,
    (hpush ⟨[counter "x", Standard.context]⟩ [counter "x", .placeholder] sineOfTwo 0 htwo
      hsettles).1⟩

end Cascade

end Formula
