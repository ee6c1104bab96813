import Mathlib.Logic.Function.Basic
import Formula.Proofs.Lookup
import Formula.Proofs.Replay

/-! Several hosts that share one interface. What one of them is asked changes no other one, and its
replies are those that it would give alone. A question without an answer changes nothing, and a tree
without a value changes only its own host, as far as the names before the failing one do. -/

namespace Formula

open Answer (outcome Sim)
open Member (Key)

variable {σ τ ι α : Type}

namespace Part

/-- What is written to the part is read from it, and nothing else is written. -/
structure Lawful (part : Part σ τ) : Prop where
  get_set : ∀ host state, part.get (part.set host state) = host
  set_get : ∀ state, part.set (part.get state) state = state
  set_set : ∀ host other state, part.set host (part.set other state) = part.set host state

def component [DecidableEq ι] (i : ι) : Part (ι → τ) τ where
  get hosts := hosts i
  set host hosts := Function.update hosts i host

theorem lawful_component [DecidableEq ι] (i : ι) : (component i : Part (ι → τ) τ).Lawful where
  get_set _ _ := Function.update_self ..
  set_get _ := Function.update_eq_self ..
  set_set _ _ _ := Function.update_idem ..

end Part

namespace Interface

variable {interface : Interface τ} {part : Part σ τ} {name : String} {arguments : List Float}

theorem contains_within : (interface.within part).contains name = interface.contains name := by
  simp only [contains, within, Std.TreeMap.contains_map]

theorem find?_within (key : Key) : (interface.within part).find? key =
    (interface.find? key).map fun run arguments => onPart part (run arguments) := by
  cases key with
  | property name | field name =>
    simp only [find?, within, Std.TreeMap.getElem?_map, Option.map_map]
    rfl
  | method name arity =>
    simp only [find?, method?, within, Std.TreeMap.getElem?_map]
    cases interface.methods[name]? with
    | none => rfl
    | some overloads => exact Std.TreeMap.getElem?_map

theorem accessor?_within : (interface.within part).accessor? name arguments =
    (interface.accessor? name arguments).map (onPart part) := by
  rw [accessor?_eq, accessor?_eq, funext find?_within]
  simp only [← Function.comp_def, ← List.map_findSome?, Option.map_map]
  rfl

theorem refusal_within :
    (interface.within part).refusal name arguments = interface.refusal name arguments := by
  simp only [refusal, within, Std.TreeMap.contains_map]

section Lawful

variable (hpart : part.Lawful)

include hpart

theorem outcome_resolve_within (state : σ) :
    outcome ((interface.within part).context.resolve name arguments) state =
      match outcome (interface.context.resolve name arguments) (part.get state) with
      | (answer, host) => (answer, part.set host state) := by
  rw [outcome_resolve, outcome_resolve, accessor?_within, refusal_within]
  cases interface.accessor? name arguments with
  | some accessor => rfl
  | none => simp only [Option.map_none, hpart.set_get]

/-- A tree is evaluated on the part alone. -/
theorem outcome_evaluate_within (t : Node) (state : σ) :
    outcome (t.evaluate (interface.within part).context) state =
      match outcome (t.evaluate interface.context) (part.get state) with
      | (answer, host) => (answer, part.set host state) := by
  -- At each question the state is the first one, with another host as the part.
  have hsim : Sim (fun now host => now = part.set host state)
      (t.evaluate (interface.within part).context) (t.evaluate interface.context) := by
    apply t.sim_evaluate
    rintro name arguments - _ host rfl
    rw [outcome_resolve_within hpart, hpart.get_set]
    exact ⟨rfl, hpart.set_set _ _ _⟩
  obtain ⟨hanswer, hstate⟩ := hsim state (part.get state) (hpart.set_get state).symm
  exact Prod.ext hanswer hstate

theorem replay_within {first last : σ} {answers : List Resolution}
    (h : Replay (interface.within part).context first answers last) :
    Replay interface.context (part.get first) answers (part.get last) ∧
      last = part.set (part.get last) first := by
  induction h with
  | nil => exact ⟨.nil, (hpart.set_get first).symm⟩
  | @snoc answers state r last _ hlast ih =>
    obtain ⟨hreplay, hstate⟩ := ih
    rw [outcome_resolve_within hpart] at hlast
    obtain ⟨hanswer, rfl⟩ := Prod.mk.inj hlast
    rw [hpart.get_set]
    refine ⟨.snoc hreplay (Prod.ext hanswer rfl), ?_⟩
    rw [hstate, hpart.set_set]

/-- A tree without a value changes the part only, as the names before the failing one do, when they
are asked in turn of the part alone. -/
theorem evaluate_error_within {t : Node} {state final : σ} {error : NameError}
    (h : outcome (t.evaluate (interface.within part).context) state = (.error error, final)) :
    final = part.set (part.get final) state ∧
    ∃ answers name arguments after,
      outcome (t.evaluate (interface.within part).context.recorded) (state, []) =
        (.error error, final, answers ++ [⟨name, arguments, .error error⟩]) ∧
      t.questions = answers.map Resolution.question ++ (name, arguments.length) :: after ∧
      (∀ r ∈ answers, r.Succeeds) ∧
      Replay interface.context (part.get state) answers (part.get final) := by
  obtain ⟨answers, name, arguments, after, hrecord, hasked, hanswers, hreplay⟩ :=
    Node.exists_failure h
  obtain ⟨_, hbefore, hlast⟩ := hreplay.of_concat
  -- The failing name itself changes nothing.
  obtain rfl := (predictable _).state_eq_of_error hlast
  obtain ⟨hown, hfinal⟩ := replay_within hpart hbefore
  exact ⟨hfinal, answers, name, arguments, after, hrecord, hasked, hanswers, hown⟩

end Lawful

inductive Step where
  | resolve (name : String) (arguments : List Float)
  | knows (name : String)
  | contains (name : String)
  | evaluate (t : Node)

inductive Reply where
  | value (answer : Except NameError Float)
  | known (answer : Bool)

def ask (interface : Interface τ) : Step → StateM τ Reply
  | .resolve name arguments => fun host =>
    match outcome (interface.context.resolve name arguments) host with
    | (answer, host) => (.value answer, host)
  | .knows name => fun host =>
    match interface.context.knows name host with
    | (answer, host) => (.known answer, host)
  | .contains name => fun host => (.known (interface.contains name), host)
  | .evaluate t => fun host =>
    match outcome (t.evaluate interface.context) host with
    | (answer, host) => (.value answer, host)

def askAll (interface : Interface τ) : List Step → StateM τ (List Reply)
  | [] => pure []
  | step :: steps => do
    let reply ← interface.ask step
    let replies ← interface.askAll steps
    return reply :: replies

/-- What one of several hosts replies, which share an interface. -/
def askHost [DecidableEq ι] (interface : Interface τ) (i : ι) : Step → StateM (ι → τ) Reply :=
  (interface.within (.component i)).ask

def askHosts [DecidableEq ι] (interface : Interface τ) :
    List (ι × Step) → StateM (ι → τ) (List (ι × Reply))
  | [] => pure []
  | (i, step) :: steps => do
    let reply ← interface.askHost i step
    let replies ← interface.askHosts steps
    return (i, reply) :: replies

theorem outcome_resolve_of_ask {answer : Except NameError Float} {host final : τ}
    (h : interface.ask (.resolve name arguments) host = (.value answer, final)) :
    outcome (interface.context.resolve name arguments) host = (answer, final) := by
  obtain ⟨hanswer, hfinal⟩ := Prod.mk.inj h
  exact Prod.ext (Reply.value.inj hanswer) hfinal

theorem outcome_evaluate_of_ask {t : Node} {answer : Except NameError Float} {host final : τ}
    (h : interface.ask (.evaluate t) host = (.value answer, final)) :
    outcome (t.evaluate interface.context) host = (answer, final) := by
  obtain ⟨hanswer, hfinal⟩ := Prod.mk.inj h
  exact Prod.ext (Reply.value.inj hanswer) hfinal

theorem ask_within (hpart : part.Lawful) (step : Step) (state : σ) :
    (interface.within part).ask step state =
      match interface.ask step (part.get state) with
      | (reply, host) => (reply, part.set host state) := by
  cases step with
  | resolve name arguments => simp only [ask, outcome_resolve_within hpart]
  | knows name => simp only [ask, context, contains_within, hpart.set_get]
  | contains name => simp only [ask, contains_within, hpart.set_get]
  | evaluate t => simp only [ask, outcome_evaluate_within hpart]

section Hosts

variable [DecidableEq ι] (interface : Interface τ) (i : ι)

theorem askHost_eq (step : Step) (hosts : ι → τ) : interface.askHost i step hosts =
    ((interface.ask step (hosts i)).1, Function.update hosts i (interface.ask step (hosts i)).2) :=
  ask_within (Part.lawful_component i) step hosts

/-- The host that is asked replies and goes on as if it were alone. -/
theorem askHost_self (step : Step) (hosts : ι → τ) :
    ((interface.askHost i step hosts).1, (interface.askHost i step hosts).2 i) =
      interface.ask step (hosts i) := by
  rw [askHost_eq]
  exact Prod.ext rfl (Function.update_self ..)

theorem askHost_of_ne {j : ι} (h : j ≠ i) (step : Step) (hosts : ι → τ) :
    (interface.askHost i step hosts).2 j = hosts j := by
  simp only [askHost_eq, Function.update_of_ne h]

def own (entries : List (ι × α)) : List α :=
  (entries.filter fun entry => entry.1 = i).map Prod.snd

theorem own_cons_self (x : α) (entries : List (ι × α)) :
    own i ((i, x) :: entries) = x :: own i entries := by
  simp [own]

theorem own_cons_of_ne {j : ι} (h : j ≠ i) (x : α) (entries : List (ι × α)) :
    own i ((j, x) :: entries) = own i entries := by
  simp [own, h]

theorem askAll_cons (step : Step) (steps : List Step) (host : τ) :
    interface.askAll (step :: steps) host =
      ((interface.ask step host).1 :: (interface.askAll steps (interface.ask step host).2).1,
        (interface.askAll steps (interface.ask step host).2).2) := rfl

theorem askHosts_cons (step : Step) (steps : List (ι × Step)) (hosts : ι → τ) :
    interface.askHosts ((i, step) :: steps) hosts =
      ((i, (interface.askHost i step hosts).1) ::
          (interface.askHosts steps (interface.askHost i step hosts).2).1,
        (interface.askHosts steps (interface.askHost i step hosts).2).2) := rfl

/-- Each host replies as if it were asked alone, and comes to the state that it would come to. -/
theorem askAll_own (steps : List (ι × Step)) (hosts : ι → τ) :
    interface.askAll (own i steps) (hosts i) =
      (own i (interface.askHosts steps hosts).1, (interface.askHosts steps hosts).2 i) := by
  -- A step of another host leaves this one as it is, so that its own steps go on from there.
  induction steps generalizing hosts with
  | nil => rfl
  | cons entry steps ih =>
    obtain ⟨j, step⟩ := entry
    specialize ih (interface.askHost j step hosts).2
    rw [askHosts_cons]
    by_cases hj : j = i
    · subst hj
      rw [own_cons_self, own_cons_self, askAll_cons, ← askHost_self, ih]
    · rw [askHost_of_ne _ _ (Ne.symm hj)] at ih
      rw [own_cons_of_ne _ hj, own_cons_of_ne _ hj, ih]

/-- Hosts that share an interface do not disturb each other, and what has no value leaves no trace,
except for what the names before the failing one do to the host of the tree. -/
theorem askHosts_independent (interface : Interface τ) :
    (∀ (steps : List (ι × Step)) (hosts : ι → τ) (i : ι),
      interface.askAll (own i steps) (hosts i) =
        (own i (interface.askHosts steps hosts).1, (interface.askHosts steps hosts).2 i)) ∧
    (∀ (i : ι) (name : String) (hosts : ι → τ),
      (interface.askHost i (.knows name) hosts).2 = hosts ∧
      (interface.askHost i (.contains name) hosts).2 = hosts) ∧
    (∀ (i : ι) (name : String) (arguments : List Float) (hosts final : ι → τ) (error : NameError),
      interface.askHost i (.resolve name arguments) hosts = (.value (.error error), final) →
      final = hosts) ∧
    ∀ (i : ι) (t : Node) (hosts final : ι → τ) (error : NameError),
      interface.askHost i (.evaluate t) hosts = (.value (.error error), final) →
      (∀ j ≠ i, final j = hosts j) ∧
      ∃ answers name arguments after,
        outcome (t.evaluate (interface.within (.component i)).context.recorded) (hosts, []) =
          (.error error, final, answers ++ [⟨name, arguments, .error error⟩]) ∧
        t.questions = answers.map Resolution.question ++ (name, arguments.length) :: after ∧
        (∀ r ∈ answers, r.Succeeds) ∧
        Replay interface.context (hosts i) answers (final i) := by
  refine ⟨fun steps hosts i => interface.askAll_own i steps hosts, fun _ _ _ => ⟨rfl, rfl⟩, ?_, ?_⟩
  · intro i name arguments hosts final error h
    exact (predictable _).state_eq_of_error (outcome_resolve_of_ask h)
  · intro i t hosts final error h
    obtain ⟨hfinal, hfailure⟩ :=
      evaluate_error_within (Part.lawful_component i) (outcome_evaluate_of_ask h)
    refine ⟨fun j hj => ?_, hfailure⟩
    rw [hfinal]
    exact Function.update_of_ne hj ..

end Hosts

def counter : Interface Nat :=
  .ofList [.method "tick" 0 fun _ count => (1, count + 1), .field "step" fun count => (1, count)]

def counters : Bool → Nat
  | false => 3
  | true => 10

def halfway : Node := .ternary .clamp (.var "tick") (.var "lost") (.var "tick")

theorem askHosts_independent_halfway :
    (counter.askHost true (.resolve "step" [1]) counters).1 =
      .value (.error (.unknownFunction "step")) ∧
    (counter.askHost true (.resolve "step" [1]) counters).2 = counters ∧
    (counter.askHost false (.evaluate halfway) counters).1 =
      .value (.error (.unresolved "lost" 0)) ∧
    (counter.askHost false (.evaluate halfway) counters).2 true = 10 ∧
    ∃ answers, (∀ r ∈ answers, r.Succeeds) ∧ Replay counter.context 3 answers 4 := by
  obtain ⟨-, -, hresolve, hevaluate⟩ := askHosts_independent (ι := Bool) counter
  have hstep : (counter.askHost true (.resolve "step" [1]) counters).1 =
      .value (.error (.unknownFunction "step")) := rfl
  have hhalfway : (counter.askHost false (.evaluate halfway) counters).1 =
      .value (.error (.unresolved "lost" 0)) := rfl
  obtain ⟨hothers, answers, _, _, _, -, -, hanswers, hreplay⟩ :=
    hevaluate _ _ _ _ _ (Prod.ext hhalfway rfl)
  have hsame := hresolve _ _ _ _ _ _ (Prod.ext hstep rfl)
  exact ⟨hstep, hsame, hhalfway, hothers true (by decide), answers, hanswers, hreplay⟩

end Interface

end Formula
