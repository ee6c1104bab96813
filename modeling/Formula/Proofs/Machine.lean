import Formula.Proofs.Record

/-! A machine with a stack of operands that carries out the instructions of a tree. It resolves the
same names with the same arguments in the same order as the evaluation of the tree, has the same
answers and leaves the same state behind. -/

namespace Formula

open Answer (outcome outcome_bind)

variable {σ α β : Type}

structure Machine (σ : Type) where
  /-- The operands, the last one first. -/
  stack : List Float
  state : σ
  answers : List Resolution

namespace Machine

inductive Outcome (σ : Type) where
  | done (machine : Machine σ)
  | failed (error : NameError) (state : σ) (answers : List Resolution)
  /-- There are fewer operands than an instruction takes. -/
  | stuck

def ask (context : Context σ) (name : String) (arguments : List Float) (m : Machine σ) :
    Outcome σ :=
  match outcome (context.resolve name arguments) m.state with
  | (.ok value, state) =>
    .done ⟨value :: m.stack, state, m.answers ++ [⟨name, arguments, .ok value⟩]⟩
  | (.error error, state) =>
    .failed error state (m.answers ++ [⟨name, arguments, .error error⟩])

def step (context : Context σ) (instruction : Instruction) (m : Machine σ) : Outcome σ :=
  match instruction, m.stack with
  | .literal value, stack => .done { m with stack := value :: stack }
  | .var name, _ => ask context name [] m
  | .call name count, stack =>
    if count ≤ stack.length then
      ask context name (stack.take count).reverse { m with stack := stack.drop count }
    else .stuck
  | .unary op, x :: stack => .done { m with stack := op.apply x :: stack }
  | .binary op, y :: x :: stack => .done { m with stack := op.apply x y :: stack }
  | .ternary op, z :: y :: x :: stack => .done { m with stack := op.apply x y z :: stack }
  | _, _ => .stuck

/-- Carries out instructions in order, up to the first failure. -/
def run (context : Context σ) : List Instruction → Machine σ → Outcome σ
  | [], m => .done m
  | instruction :: rest, m =>
    match step context instruction m with
    | .done m => run context rest m
    | .failed error state answers => .failed error state answers
    | .stuck => .stuck

/-- Goes on with what a question has led to; a failure ends the run. -/
def proceed (next : α → σ × List Resolution → Outcome σ) :
    Except NameError α × σ × List Resolution → Outcome σ
  | (.ok a, s) => next a s
  | (.error error, state, answers) => .failed error state answers

theorem proceed_bind (next : β → σ × List Resolution → Outcome σ)
    (x : Answer (σ × List Resolution) α) (f : α → Answer (σ × List Resolution) β)
    (s : σ × List Resolution) :
    proceed next (outcome (x >>= f) s) =
      proceed (fun a s => proceed next (outcome (f a) s)) (outcome x s) := by
  rw [outcome_bind]
  rcases outcome x s with ⟨⟨error⟩ | ⟨a⟩, s⟩ <;> rfl

variable {context : Context σ}

theorem ask_eq (name : String) (arguments : List Float) (m : Machine σ) :
    ask context name arguments m =
      proceed (fun value s => .done ⟨value :: m.stack, s.1, s.2⟩)
        (outcome (context.recorded.resolve name arguments) (m.state, m.answers)) := by
  rw [ask, Context.outcome_recording]
  rcases outcome (context.resolve name arguments) m.state with ⟨⟨error⟩ | ⟨value⟩, state⟩ <;> rfl

/-- The machine runs the code of a tree as the recorded context evaluates the tree. -/
def Runs (context : Context σ) (t : Node) : Prop :=
  ∀ rest stack s, run context (t.codeThen rest) ⟨stack, s.1, s.2⟩ =
    proceed (fun value s => run context rest ⟨value :: stack, s.1, s.2⟩)
      (outcome (t.evaluate context.recorded) s)

theorem run_cons_ask {instruction : Instruction} {name : String} {arguments : List Float}
    {m n : Machine σ} (h : step context instruction m = ask context name arguments n)
    (rest : List Instruction) :
    run context (instruction :: rest) m =
      proceed (fun value s => run context rest ⟨value :: n.stack, s.1, s.2⟩)
        (outcome (context.recorded.resolve name arguments) (n.state, n.answers)) := by
  rw [run, h, ask_eq]
  rcases outcome (context.recorded.resolve name arguments) (n.state, n.answers) with
    ⟨⟨error⟩ | ⟨value⟩, s⟩ <;> rfl

theorem run_codeAllThen {nodes : List Node} (h : ∀ t ∈ nodes, Runs context t)
    (rest : List Instruction) (stack : List Float) (s : σ × List Resolution) :
    run context (Node.codeAllThen rest nodes) ⟨stack, s.1, s.2⟩ =
      proceed (fun values s => run context rest ⟨values.reverse ++ stack, s.1, s.2⟩)
        (outcome (Node.evaluateAll context.recorded nodes) s) := by
  induction nodes generalizing stack s with
  | nil => rfl
  | cons t nodes ih =>
    have ih := ih fun u hu => h u (List.mem_cons_of_mem t hu)
    rw [Node.codeAllThen, h t List.mem_cons_self, Node.evaluateAll, proceed_bind]
    congr 1
    funext value s
    rw [ih, proceed_bind]
    congr 1
    funext values s
    simp [proceed, Answer.outcome_pure]

theorem runs (context : Context σ) (t : Node) : Runs context t := by
  -- The code that follows and the stack below are arbitrary, so that operands can be run in turn.
  induction t using Node.induct with
  | literal value => exact fun _ _ _ => rfl
  | var name =>
    intro rest stack s
    have h : step context (.var name) ⟨stack, s.1, s.2⟩ =
      ask context name [] ⟨stack, s.1, s.2⟩ := rfl
    exact run_cons_ask h rest
  | call name arguments ih =>
    intro rest stack s
    rw [Node.codeThen, run_codeAllThen ih, Node.evaluate, proceed_bind]
    rcases h : outcome (Node.evaluateAll context.recorded arguments) s with
      ⟨⟨error⟩ | ⟨values⟩, s'⟩
    · rfl
    · have hlength : values.length = arguments.length :=
        Node.length_of_gives_evaluateAll ⟨s, by rw [h]⟩
      have hstep : step context (.call name arguments.length)
          ⟨values.reverse ++ stack, s'.1, s'.2⟩ = ask context name values ⟨stack, s'.1, s'.2⟩ := by
        simp [step, ← hlength]
      exact run_cons_ask hstep rest
  | unary op operand ih =>
    intro rest stack s
    rw [Node.codeThen, ih, Node.evaluate, proceed_bind]
    rfl
  | binary op lhs rhs ihl ihr =>
    intro rest stack s
    rw [Node.codeThen, ihl, Node.evaluate, proceed_bind]
    simp only [ihr _ _ _, proceed_bind]
    rfl
  | ternary op first second third ih₁ ih₂ ih₃ =>
    intro rest stack s
    rw [Node.codeThen, ih₁, Node.evaluate, proceed_bind]
    simp only [ih₂ _ _ _, ih₃ _ _ _, proceed_bind]
    rfl

/-- What instructions with these questions can come to, `old` being the answers before them: all
questions are answered, or the first answers are values and the one after them is a failure. -/
inductive Trail (old : List Resolution) (questions : List (String × Nat)) : Outcome σ → Prop
  | done {stack state new} : new.map Resolution.question = questions → (∀ r ∈ new, r.Succeeds) →
      Trail old questions (.done ⟨stack, state, old ++ new⟩)
  | failed {error state new last} : (∀ r ∈ new, r.Succeeds) → last.answer = .error error →
      (new ++ [last]).map Resolution.question <+: questions →
      Trail old questions (.failed error state (old ++ (new ++ [last])))
  | stuck : Trail old questions .stuck

theorem Trail.keep (stack : List Float) (state : σ) (old : List Resolution) :
    Trail old [] (.done ⟨stack, state, old⟩) := by
  have h : Trail old [] (.done ⟨stack, state, old ++ []⟩) := .done rfl nofun
  rwa [List.append_nil] at h

variable (context) in
theorem trail_ask (name : String) (arguments : List Float) (m : Machine σ) :
    Trail m.answers [(name, arguments.length)] (ask context name arguments m) := by
  unfold ask
  rcases outcome (context.resolve name arguments) m.state with ⟨⟨error⟩ | ⟨value⟩, state⟩
  · exact .failed (List.forall_mem_nil _) rfl (List.prefix_refl _)
  · exact .done rfl (by simp [Resolution.Succeeds])

variable (context) in
theorem trail_step (instruction : Instruction) (m : Machine σ) :
    Trail m.answers instruction.question?.toList (step context instruction m) := by
  obtain ⟨stack, state, answers⟩ := m
  cases instruction with
  | literal value => exact .keep _ _ _
  | var name => exact trail_ask context name [] _
  | call name count =>
    rw [step]
    split
    · rename_i hle
      have hlength : (stack.take count).reverse.length = count := by
        rw [List.length_reverse, List.length_take, Nat.min_eq_left hle]
      have h := trail_ask context name (stack.take count).reverse
        ⟨stack.drop count, state, answers⟩
      rwa [hlength] at h
    · exact .stuck
  | unary op =>
    rcases stack with _ | ⟨x, stack⟩
    · exact .stuck
    · exact .keep _ _ _
  | binary op =>
    rcases stack with _ | ⟨y, _ | ⟨x, stack⟩⟩
    · exact .stuck
    · exact .stuck
    · exact .keep _ _ _
  | ternary op =>
    rcases stack with _ | ⟨z, _ | ⟨y, _ | ⟨x, stack⟩⟩⟩
    · exact .stuck
    · exact .stuck
    · exact .stuck
    · exact .keep _ _ _

theorem Trail.prepend {old new : List Resolution} {questions rest : List (String × Nat)}
    {result : Outcome σ} (h : Trail (old ++ new) rest result)
    (hnew : new.map Resolution.question = questions) (hall : ∀ r ∈ new, r.Succeeds) :
    Trail old (questions ++ rest) result := by
  subst hnew
  cases h with
  | done hmore hmoreall =>
    rw [List.append_assoc]
    refine .done ?_ (List.forall_mem_append.mpr ⟨hall, hmoreall⟩)
    rw [List.map_append, hmore]
  | failed hmoreall hlast hmore =>
    rw [List.append_assoc, ← List.append_assoc new]
    refine .failed (List.forall_mem_append.mpr ⟨hall, hmoreall⟩) hlast ?_
    rw [List.append_assoc, List.map_append]
    exact (List.prefix_append_right_inj _).mpr hmore
  | stuck => exact .stuck

variable (context) in
/-- One after the other, instructions ask their questions up to the first failure. -/
theorem trail_run (instructions : List Instruction) (m : Machine σ) :
    Trail m.answers (instructions.filterMap Instruction.question?)
      (run context instructions m) := by
  induction instructions generalizing m with
  | nil => exact .keep _ _ _
  | cons instruction rest ih =>
    have hquestions : (instruction :: rest).filterMap Instruction.question? =
        instruction.question?.toList ++ rest.filterMap Instruction.question? := by
      cases h : instruction.question? <;> simp [h]
    have hstep := trail_step context instruction m
    rw [run, hquestions]
    cases h : step context instruction m with
    | done next =>
      rw [h] at hstep
      cases hstep with
      | done hnew hall => exact (ih ⟨_, _, _⟩).prepend hnew hall
    | failed error state answers =>
      rw [h] at hstep
      cases hstep with
      | failed hall hlast hnew => exact .failed hall hlast (hnew.trans (List.prefix_append _ _))
    | stuck => exact .stuck

theorem Trail.of_done {questions : List (String × Nat)} {m : Machine σ}
    (h : Trail [] questions (.done m)) :
    m.answers.map Resolution.question = questions ∧ ∀ r ∈ m.answers, r.Succeeds := by
  cases h with
  | done hnew hall => exact ⟨hnew, hall⟩

theorem Trail.of_failed {questions : List (String × Nat)} {error : NameError} {state : σ}
    {answers : List Resolution} (h : Trail [] questions (.failed error state answers)) :
    answers.map Resolution.question <+: questions ∧ ∃ before last, answers = before ++ [last] ∧
      last.answer = .error error ∧ ∀ r ∈ before, r.Succeeds := by
  cases h with
  | failed hall hlast hnew => exact ⟨hnew, _, _, rfl, hlast, hall⟩

end Machine

open Machine (run)

/-- A tree has the value or the failure to which the machine comes with its instructions, by the
same questions in the same order and with the same state in the end. The questions asked are the
first names of the tree in postorder: all of them if all have a meaning, and else those up to the
first one that has none. -/
theorem Node.evaluate_eq_run (context : Context σ) (t : Node) (state : σ) :
    ∃ result final answers,
      outcome (t.evaluate context) state = (result, final) ∧
      outcome (t.evaluate context.recorded) (state, []) = (result, final, answers) ∧
      run context t.code ⟨[], state, []⟩ = (match result with
        | .ok value => .done ⟨[value], final, answers⟩
        | .error error => .failed error final answers) ∧
      answers.map Resolution.question <+: t.questions ∧
      ((∃ value, result = .ok value) ↔
        answers.map Resolution.question = t.questions ∧ ∀ r ∈ answers, r.Succeeds) ∧
      ∀ error, result = .error error ↔ ∃ before last, answers = before ++ [last] ∧
        last.answer = .error error ∧ ∀ r ∈ before, r.Succeeds := by
  rcases h : outcome (t.evaluate context.recorded) (state, []) with ⟨result, final, answers⟩
  have hrun := Machine.runs context t [] [] (state, [])
  have htrail := Machine.trail_run context t.code ⟨[], state, []⟩
  refine ⟨result, final, answers, Node.outcome_evaluate_of_recording h, rfl, ?_⟩
  rw [h] at hrun
  rw [show run context t.code ⟨[], state, []⟩ = _ from hrun] at htrail
  cases result with
  | ok value =>
    obtain ⟨hall, hsucceed⟩ := htrail.of_done
    refine ⟨hrun, ?_, ?_, ?_⟩
    · exact hall ▸ List.prefix_refl _
    · exact ⟨fun _ => ⟨hall, hsucceed⟩, fun _ => ⟨value, rfl⟩⟩
    · intro error
      refine ⟨nofun, ?_⟩
      rintro ⟨before, last, rfl, hlast, -⟩
      obtain ⟨_, hvalue⟩ := hsucceed last (by simp)
      rw [hvalue] at hlast
      cases hlast
  | error error =>
    obtain ⟨hasked, before, last, rfl, hlast, hbefore⟩ := htrail.of_failed
    refine ⟨hrun, hasked, ⟨nofun, ?_⟩, ?_⟩
    · rintro ⟨-, hsucceed⟩
      obtain ⟨_, hvalue⟩ := hsucceed last (by simp)
      rw [hvalue] at hlast
      cases hlast
    · intro other
      constructor
      · rintro ⟨⟩
        exact ⟨before, last, rfl, hlast, hbefore⟩
      · rintro ⟨_, _, heq, hother, -⟩
        obtain ⟨rfl⟩ := (List.append_inj' heq rfl).2
        rw [hlast] at hother
        exact hother

end Formula
