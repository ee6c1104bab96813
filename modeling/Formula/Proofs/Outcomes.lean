import Formula.Proofs.Environment
import Formula.Proofs.Reading
import Formula.Proofs.Written

/-! What the command line answers when it is asked for a value. There are three answers: the text is
no expression, a name has no value, or there is a value; which one it is and what is printed depends
on the text and on the last values of its names alone. -/

namespace Formula

open Answer (outcome)
open Bindings (lastValue?)

mutual

theorem Derives.exists_name {name : String} {l : Level} {ts : List Token} {t : Node} :
    Derives l ts t → name ∈ t.names → ∃ n ∈ ts, n.kind = .name ∧ n.literal = name
  | .sum h, hname => h.exists_name hname
  | .product h, hname => h.exists_name hname
  | .unary h, hname => h.exists_name hname
  | .add hl _ hr, hname | .subtract hl _ hr, hname | .multiply hl _ hr, hname
  | .divide hl _ hr, hname => by
    rw [Node.names_binary, List.mem_append] at hname
    rcases hname with hname | hname
    · obtain ⟨n, hn, hkind⟩ := hl.exists_name hname
      exact ⟨n, List.mem_append_left _ hn, hkind⟩
    · obtain ⟨n, hn, hkind⟩ := hr.exists_name hname
      exact ⟨n, List.mem_append_right _ (List.mem_cons_of_mem _ hn), hkind⟩
  | .positive _ h, hname => by
    obtain ⟨n, hn, hkind⟩ := h.exists_name hname
    exact ⟨n, List.mem_cons_of_mem _ hn, hkind⟩
  | .negative _ h, hname => by
    obtain ⟨n, hn, hkind⟩ := h.exists_name (by simpa using hname)
    exact ⟨n, List.mem_cons_of_mem _ hn, hkind⟩
  | .number _, hname => absurd hname (by simp)
  | .group _ h _, hname => by
    obtain ⟨n, hn, hkind⟩ := h.exists_name hname
    exact ⟨n, List.mem_cons_of_mem _ (List.mem_append_left _ hn), hkind⟩
  | .var (n := n) hn, hname => by
    rw [Node.names_var, List.mem_singleton] at hname
    exact ⟨n, List.mem_singleton_self n, hn, hname.symm⟩
  | .call (n := n) hn _ h _, hname => by
    rw [Node.names_call, List.mem_append, List.mem_singleton] at hname
    rcases hname with hname | rfl
    · obtain ⟨m, hm, hkind⟩ := h.exists_name hname
      exact ⟨m, List.mem_cons_of_mem _ (List.mem_cons_of_mem _ (List.mem_append_left _ hm)), hkind⟩
    · exact ⟨n, List.mem_cons_self, hn, rfl⟩

theorem DerivesAll.exists_name {name : String} {ts : List Token} {nodes : List Node} :
    DerivesAll ts nodes → name ∈ nodes.flatMap Node.names →
      ∃ n ∈ ts, n.kind = .name ∧ n.literal = name
  | .single h, hname => h.exists_name (by simpa using hname)
  | .cons h _ hrest, hname => by
    rw [List.flatMap_cons, List.mem_append] at hname
    rcases hname with hname | hname
    · obtain ⟨n, hn, hkind⟩ := h.exists_name hname
      exact ⟨n, List.mem_append_left _ hn, hkind⟩
    · obtain ⟨n, hn, hkind⟩ := hrest.exists_name hname
      exact ⟨n, List.mem_append_right _ (List.mem_cons_of_mem _ hn), hkind⟩

end

namespace Command

open Text (Source)

def headline (line : Nat) (message : String) : String :=
  "[line " ++ toString line ++ "] Error: " ++ message

/-- The status and all that is printed for an expression with these bindings, where `draw` is how a
library draws errors. -/
inductive Evaluates (draw : Report → String) (bound : List (String × Float)) (source : Source) :
    Nat → String → String → Prop
  | unreadable {error} : parseSource source = .error error →
      Evaluates draw bound source 65 ""
        (headline error.line error.cause.message ++ "\n" ++ draw (.unreadable error) ++ "\n")
  /-- The first name without a value is reported. -/
  | unresolved {t before name count after} : parseSource source = .ok t →
      t.questions = before ++ (name, count) :: after →
      (∀ question ∈ before, HasValue bound question) → ¬ HasValue bound (name, count) →
      Evaluates draw bound source 70 ""
        ("Error: cannot evaluate `" ++ name ++ "`" ++ "\n" ++
          draw (.unresolvable (blame bound name count)) ++ "\n")
  | value {t value} : parseSource source = .ok t →
      (∀ question ∈ t.questions, HasValue bound question) →
      (outcome (t.evaluate (scope bound)) ()).1 = .ok value →
      Number.ReadsBack (Number.plain value) value →
      Evaluates draw bound source 0 (Number.plain value ++ "\n") ""

variable {bound : List (String × Float)} {source : Source}

section Status

variable {draw : Report → String} {status : Nat} {stdout stderr : String}

theorem Evaluates.status_eq_unreadable_iff (h : Evaluates draw bound source status stdout stderr) :
    status = 65 ↔ ∀ t, parseSource source ≠ .ok t := by
  cases h with
  | unreadable herror => exact iff_of_true rfl fun t ht => by cases herror.symm.trans ht
  | unresolved ht => exact iff_of_false nofun fun hno => hno _ ht
  | value ht => exact iff_of_false nofun fun hno => hno _ ht

theorem Evaluates.status_eq_unresolved_iff (h : Evaluates draw bound source status stdout stderr) :
    status = 70 ↔ ∃ t, parseSource source = .ok t ∧
      ∃ question ∈ t.questions, ¬ HasValue bound question := by
  cases h with
  | unreadable herror =>
    refine iff_of_false nofun ?_
    rintro ⟨t, ht, -⟩
    cases herror.symm.trans ht
  | unresolved ht hquestions _ hno =>
    exact iff_of_true rfl ⟨_, ht, _, by rw [hquestions]; simp, hno⟩
  | value ht hall =>
    refine iff_of_false nofun ?_
    rintro ⟨t, ht', question, hquestion, hno⟩
    cases ht.symm.trans ht'
    exact hno (hall question hquestion)

theorem Evaluates.status_eq_value_iff (h : Evaluates draw bound source status stdout stderr) :
    status = 0 ↔ ∃ t, parseSource source = .ok t ∧
      ∀ question ∈ t.questions, HasValue bound question := by
  cases h with
  | unreadable herror =>
    refine iff_of_false nofun ?_
    rintro ⟨t, ht, -⟩
    cases herror.symm.trans ht
  | unresolved ht hquestions _ hno =>
    refine iff_of_false nofun ?_
    rintro ⟨t, ht', hall⟩
    cases ht.symm.trans ht'
    exact hno (hall _ (by rw [hquestions]; simp))
  | value ht hall => exact iff_of_true rfl ⟨_, ht, hall⟩

theorem Evaluates.exists_unresolved (h : Evaluates draw bound source 70 stdout stderr) :
    ∃ t name count, parseSource source = .ok t ∧ (name, count) ∈ t.questions ∧
      ¬ HasValue bound (name, count) ∧
      stderr = "Error: cannot evaluate `" ++ name ++ "`" ++ "\n" ++
        draw (.unresolvable (blame bound name count)) ++ "\n" := by
  cases h with
  | unresolved ht hquestions _ hno => exact ⟨_, _, _, ht, by rw [hquestions]; simp, hno, rfl⟩

theorem Evaluates.exists_value (h : Evaluates draw bound source 0 stdout stderr) :
    ∃ t value, parseSource source = .ok t ∧ (outcome (t.evaluate (scope bound)) ()).1 = .ok value ∧
      stdout = Number.plain value ++ "\n" := by
  cases h with
  | value ht _ hvalue => exact ⟨_, _, ht, hvalue, rfl⟩

end Status

theorem eval_of_error {error : SyntaxError} (h : parseSource source = .error error) :
    eval bound source = syntaxFailure error := by
  simp only [eval, h]

theorem eval_of_ok {t : Node} (h : parseSource source = .ok t) : eval bound source =
    match outcome (t.evaluate (environment bound)) #[.parsed t.print] with
    | (.ok value, events) => ⟨0, Number.plain value ++ "\n", "", none, events⟩
    | (.error error, events) =>
      ⟨70, "", "Error: cannot evaluate `" ++ error.name ++ "`", some (.unresolvable error),
        events⟩ := by
  simp only [eval, h, outcome]
  cases t.evaluate (environment bound) #[.parsed t.print] <;> rfl

theorem written_syntaxFailure (draw : Report → String) (error : SyntaxError) :
    (syntaxFailure error).written draw =
      headline error.line error.cause.message ++ "\n" ++ draw (.unreadable error) ++ "\n" := by
  simp only [syntaxFailure, headline, Outcome.written, Option.elim_some, Report.text,
    String.append_assoc]

theorem evaluates_eval (draw : Report → String) (bound : List (String × Float)) (source : Source) :
    Evaluates draw bound source (eval bound source).status (eval bound source).stdout
      ((eval bound source).written draw) := by
  cases hparse : parseSource source with
  | error error =>
    rw [eval_of_error hparse, written_syntaxFailure]
    exact .unreadable hparse
  | ok t =>
    rw [eval_of_ok hparse]
    by_cases hall : ∀ question ∈ t.questions, HasValue bound question
    · obtain ⟨value, hmeant, hvalue⟩ := evaluate_of_hasValue hall
      have hanswer := hvalue #[.parsed t.print]
      generalize outcome (t.evaluate (environment bound)) #[.parsed t.print] = result at hanswer ⊢
      obtain ⟨_, events⟩ := result
      obtain rfl : _ = Except.ok value := hanswer
      exact .value hparse hall hmeant (Number.readsBack_plain value)
    · push Not at hall
      obtain ⟨before, name, count, after, hquestions, hbefore, hno, herror⟩ :=
        evaluate_of_not_hasValue hall
      have hanswer := herror #[.parsed t.print]
      generalize outcome (t.evaluate (environment bound)) #[.parsed t.print] = result at hanswer ⊢
      obtain ⟨_, events⟩ := result
      obtain rfl : _ = Except.error (blame bound name count) := hanswer
      have hunresolved : Evaluates draw bound source 70 "" _ :=
        .unresolved hparse hquestions hbefore hno
      simpa only [Outcome.written, Option.elim_some, Report.text, name_blame, String.append_assoc]
        using hunresolved

theorem exists_value_of_status (h : (eval bound source).status = 0) :
    ∃ t value, parseSource source = .ok t ∧ (outcome (t.evaluate (scope bound)) ()).1 = .ok value ∧
      (eval bound source).stdout = Number.plain value ++ "\n" := by
  have hevaluates := evaluates_eval (fun _ => "") bound source
  rw [h] at hevaluates
  exact hevaluates.exists_value

theorem run_eq_eval {request : Request} (hverb : request.verb = .eval)
    (hbound : List.Forall₂ (fun text binding => Binds text binding.1 binding.2) request.bindings
      bound) (hsource : request.source? = .ok (some source)) :
    request.run = eval bound source := by
  simp only [Request.run, Request.bound, hverb, if_true, readBindings_eq_ok_iff.mpr hbound, hsource]

/-- The values of names that are not in the text make no difference, not even to the log. -/
theorem eval_congr {other : List (String × Float)}
    (h : ∀ token ∈ Token.ofText source.text, ∀ name ∈ token.name?,
      lastValue? other name = lastValue? bound name) : eval other source = eval bound source := by
  cases hparse : parseSource source with
  | error error => rw [eval_of_error hparse, eval_of_error hparse]
  | ok t =>
    have hsame : t.evaluate (environment other) = t.evaluate (environment bound) := by
      apply Node.evaluate_congr
      intro name hname
      obtain ⟨n, hn, hkind, hliteral⟩ := (parseSource_eq_ok.mp hparse).exists_name hname
      apply resolve_environment_congr
      apply h n hn
      simp [Token.name?, hkind, hliteral]
    rw [eval_of_ok hparse, eval_of_ok hparse, hsame]

/-- Asked for a value with well-formed bindings, the command line tells whether the text is no
expression, which name is the first without a value, or the value. Bindings matter only through the
last values of the names in the text. -/
theorem run_evaluates (request : Request) (hverb : request.verb = .eval)
    (hbound : List.Forall₂ (fun text binding => Binds text binding.1 binding.2) request.bindings
      bound) (hsource : request.source? = .ok (some source)) :
    (∀ draw, Evaluates draw bound source request.run.status request.run.stdout
      (request.run.written draw)) ∧
    (request.run.status = 65 ↔ ∀ t, parseSource source ≠ .ok t) ∧
    (request.run.status = 70 ↔ ∃ t, parseSource source = .ok t ∧
      ∃ question ∈ t.questions, ¬ HasValue bound question) ∧
    (request.run.status = 0 ↔ ∃ t, parseSource source = .ok t ∧
      ∀ question ∈ t.questions, HasValue bound question) ∧
    ∀ (other : Request) (otherBound : List (String × Float)), other.verb = .eval →
      List.Forall₂ (fun text binding => Binds text binding.1 binding.2) other.bindings otherBound →
      other.source? = .ok (some source) →
      (∀ token ∈ Token.ofText source.text, ∀ name ∈ token.name?,
        lastValue? otherBound name = lastValue? bound name) →
      other.run = request.run := by
  rw [run_eq_eval hverb hbound hsource]
  have hevaluates := evaluates_eval (fun _ => "") bound source
  refine ⟨fun draw => evaluates_eval draw bound source, hevaluates.status_eq_unreadable_iff,
    hevaluates.status_eq_unresolved_iff, hevaluates.status_eq_value_iff, ?_⟩
  intro other otherBound hverb' hbound' hsource' hsame
  rw [run_eq_eval hverb' hbound' hsource', eval_congr hsame]

/-- A variable that hides a function, and another one that is bound twice. -/
def hidden : Request := ⟨.eval, [" max =1", "x=2", "x = 3", "y=1"], some "max(x, y)", none⟩

def rebound : Request := ⟨.eval, ["y=1", "x=3", "unused=5", "max=1"], some "max(x, y)", none⟩

def unhidden : Request := ⟨.eval, ["x=2", "x = 3", "y=1"], some "max(x, y)", none⟩

theorem run_evaluates_hidden :
    List.Forall₂ (fun text binding => Binds text binding.1 binding.2) hidden.bindings
      [("max", 1), ("x", 2), ("x", 3), ("y", 1)] ∧
    List.Forall₂ (fun text binding => Binds text binding.1 binding.2) rebound.bindings
      [("y", 1), ("x", 3), ("unused", 5), ("max", 1)] ∧
    List.Forall₂ (fun text binding => Binds text binding.1 binding.2) unhidden.bindings
      [("x", 2), ("x", 3), ("y", 1)] ∧
    hidden.source? = .ok (some ⟨none, "max(x, y)"⟩) ∧
    hidden.run.status = 70 ∧
    (∀ draw, hidden.run.written draw = "Error: cannot evaluate `max`\n" ++
      draw (.unresolvable (.unresolved "max" 2)) ++ "\n") ∧
    rebound.run = hidden.run ∧
    unhidden.run.status = 0 ∧ unhidden.run.stdout = "3\n" := by
  have hbound : List.Forall₂ (fun text binding => Binds text binding.1 binding.2) hidden.bindings
      [("max", 1), ("x", 2), ("x", 3), ("y", 1)] := readBindings_eq_ok_iff.mp rfl
  have hrebound : List.Forall₂ (fun text binding => Binds text binding.1 binding.2)
      rebound.bindings [("y", 1), ("x", 3), ("unused", 5), ("max", 1)] :=
    readBindings_eq_ok_iff.mp rfl
  have hunhidden : List.Forall₂ (fun text binding => Binds text binding.1 binding.2)
      unhidden.bindings [("x", 2), ("x", 3), ("y", 1)] := readBindings_eq_ok_iff.mp rfl
  have htokens : Token.ofText "max(x, y)" = [⟨.name, "max", 0⟩, ⟨.leftParen, "(", 3⟩,
      ⟨.name, "x", 4⟩, ⟨.comma, ",", 5⟩, ⟨.name, "y", 7⟩, ⟨.rightParen, ")", 8⟩] := by
    decide +kernel
  have hparse : parseSource ⟨none, "max(x, y)"⟩ = .ok (.call "max" [.var "x", .var "y"]) := by
    have hname (s : String) (i : Nat) : Derives .sum [⟨.name, s, i⟩] (.var s) :=
      .of_leaf (.var (n := ⟨.name, s, i⟩) rfl)
    rw [parseSource_eq_ok, htokens]
    have harguments : DerivesAll [⟨.name, "x", 4⟩, ⟨.comma, ",", 5⟩, ⟨.name, "y", 7⟩]
        [.var "x", .var "y"] := .cons (hname "x" 4) rfl (.single (hname "y" 7))
    exact .of_leaf (.call (n := ⟨.name, "max", 0⟩) rfl rfl harguments rfl)
  have hasked : (Node.call "max" [.var "x", .var "y"]).questions =
      [("x", 0), ("y", 0), ("max", 2)] := rfl
  have hsame : ∀ token ∈ Token.ofText "max(x, y)", ∀ name ∈ token.name?,
      lastValue? [("y", 1), ("x", 3), ("unused", 5), ("max", 1)] name =
        lastValue? [("max", 1), ("x", 2), ("x", 3), ("y", 1)] name := by
    rw [htokens]
    simp [Token.name?, lastValue?]
  obtain ⟨hevaluates, -, hunresolved, -, hagain⟩ := run_evaluates hidden rfl hbound rfl
  obtain ⟨hshown, -, -, hvalue, -⟩ := run_evaluates unhidden rfl hunhidden rfl
  have hstatus : hidden.run.status = 70 := by
    refine hunresolved.mpr ⟨_, hparse, ("max", 2), by simp, ?_⟩
    simp [HasValue, lastValue?]
  have hstatus' : unhidden.run.status = 0 := by
    refine hvalue.mpr ⟨_, hparse, ?_⟩
    simp [HasValue, lastValue?, Standard.arity?]
  refine ⟨hbound, hrebound, hunhidden, rfl, hstatus, ?_, hagain rebound _ rfl hrebound rfl hsame,
    hstatus', ?_⟩
  · intro draw
    have h := hevaluates draw
    rw [hstatus] at h
    obtain ⟨t, name, count, ht, hmem, hno, hstderr⟩ := h.exists_unresolved
    obtain rfl := Except.ok.inj (hparse.symm.trans ht)
    obtain ⟨rfl, rfl⟩ : name = "max" ∧ count = 2 := by
      simp only [hasked, List.mem_cons, Prod.mk.injEq, List.not_mem_nil, or_false] at hmem
      rcases hmem with ⟨rfl, rfl⟩ | ⟨rfl, rfl⟩ | hmax
      · simp [HasValue, lastValue?] at hno
      · simp [HasValue, lastValue?] at hno
      · exact hmax
    exact hstderr
  · have h := hshown fun _ => ""
    rw [hstatus'] at h
    obtain ⟨t, value, ht, hvalue, hstdout⟩ := h.exists_value
    obtain rfl := Except.ok.inj (hparse.symm.trans ht)
    obtain rfl : Number.larger 3 1 = value := Except.ok.inj hvalue
    rw [hstdout]
    decide +kernel

end Command

end Formula
