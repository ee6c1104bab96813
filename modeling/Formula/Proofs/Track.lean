import Formula.Proofs.Reading

/-! A pass over tokens from left to right that remembers only what may come next and which
parentheses are open, the innermost first. It stops at the same token as the descent and expects
the same there: the open parentheses are the calls of the descent that have not returned. -/

namespace Formula

open Reader

/-- What may come next. -/
inductive Phase where
  | operand
  /-- An operand, right behind the parenthesis that opens the arguments of a name. -/
  | argument (name opening : Token)
  /-- Anything behind an operand; the arguments of a name, if the operand is one. -/
  | operator (name? : Option Token)

structure Frame where
  opening : Token
  name? : Option Token

structure Track where
  phase : Phase
  frames : List Frame

namespace Track

def start : Track := ⟨.operand, []⟩

def stepOperand (frames : List Frame) (t : Token) : Option Track :=
  match t.kind with
  | .plus | .minus => some ⟨.operand, frames⟩
  | .number _ => some ⟨.operator none, frames⟩
  | .name => some ⟨.operator (some t), frames⟩
  | .leftParen => some ⟨.operand, ⟨t, none⟩ :: frames⟩
  | _ => none

def closeFrame : List Frame → Option Track
  | [] => none
  | _ :: outer => some ⟨.operator none, outer⟩

def nextArgument (frames : List Frame) : Option Track :=
  match frames with
  | ⟨_, some _⟩ :: _ => some ⟨.operand, frames⟩
  | _ => none

def stepOperator (name? : Option Token) (frames : List Frame) (t : Token) : Option Track :=
  match t.kind with
  | .plus | .minus | .star | .slash => some ⟨.operand, frames⟩
  | .leftParen => name?.map fun name => ⟨.argument name t, ⟨t, some name⟩ :: frames⟩
  | .rightParen => closeFrame frames
  | .comma => nextArgument frames
  | _ => none

def step (s : Track) (t : Token) : Option Track :=
  match s.phase with
  | .operator name? => stepOperator name? s.frames t
  | _ => stepOperand s.frames t

def steps : Track → List Token → Option Track
  | s, [] => some s
  | s, t :: ts => (s.step t).bind fun s' => steps s' ts

def accepts (s : Track) : Bool :=
  match s.phase, s.frames with
  | .operator _, [] => true
  | _, _ => false

/-- What is missing if the pass cannot go on with the tokens. -/
def expected (s : Track) (ts : List Token) : Expected :=
  match s.phase, s.frames with
  | .operand, _ => .operand
  | .argument name opening, _ => if startsWithClose ts then .argument name opening else .operand
  | .operator _, [] => .finish
  | .operator _, frame :: _ => .close frame.opening

/-- The pass to the end of the tokens or to the first token that cannot come next. -/
def run : Track → List Token → Except Failure Unit
  | s, [] => if s.accepts then .ok () else .error ⟨s.expected [], []⟩
  | s, t :: ts =>
    match s.step t with
    | some s' => run s' ts
    | none => .error ⟨s.expected (t :: ts), t :: ts⟩

theorem run_cons_of_step {s r : Track} {t : Token} (h : s.step t = some r) (ts : List Token) :
    run s (t :: ts) = run r ts := by
  rw [run, h]

theorem run_cons_of_stuck {s : Track} {t : Token} (h : s.step t = none) (ts : List Token) :
    run s (t :: ts) = .error ⟨s.expected (t :: ts), t :: ts⟩ := by
  rw [run, h]

/-- In front of what is no operator of the grammar only a parenthesis is closed or a further
argument begins. -/
theorem step_of_stops (frames : List Frame) {t : Token} {ts : List Token}
    (hs : Stops .sum (t :: ts)) (hp : Stops .product (t :: ts)) :
    step ⟨.operator none, frames⟩ t =
      match t.kind with
      | .rightParen => closeFrame frames
      | .comma => nextArgument frames
      | _ => none := by
  have hs := hs t rfl
  have hp := hp t rfl
  unfold step stepOperator
  cases hk : t.kind <;> simp_all [Level.operator?]

theorem run_readClose {o : Token} {name? : Option Token} {frames : List Frame} {ts : List Token}
    (hs : Stops .sum ts) (hp : Stops .product ts)
    (hc : name? = none ∨ ∀ t ∈ ts.head?, t.kind ≠ .comma) (node : Node) :
    run ⟨.operator none, ⟨o, name?⟩ :: frames⟩ ts =
      (readClose o node ts).bind fun p => run ⟨.operator none, frames⟩ p.2 := by
  cases ts with
  | nil => rfl
  | cons t ts =>
    have hstep := step_of_stops (⟨o, name?⟩ :: frames) hs hp
    by_cases hk : t.kind = .rightParen
    · rw [hk] at hstep
      rw [run_cons_of_step hstep, readClose_close hk]
      rfl
    · have hstuck : step ⟨.operator none, ⟨o, name?⟩ :: frames⟩ t = none := by
        rw [hstep]
        split
        · contradiction
        · rcases hc with rfl | hc
          · rfl
          · exact absurd ‹_› (hc t rfl)
        · rfl
      rw [run_cons_of_stuck hstuck, readClose_error hk]
      rfl

theorem run_forget_name {name? : Option Token} {frames : List Frame} {ts : List Token}
    (h : ∀ t ∈ ts.head?, t.kind ≠ .leftParen) :
    run ⟨.operator name?, frames⟩ ts = run ⟨.operator none, frames⟩ ts := by
  cases ts with
  | nil => cases frames <;> rfl
  | cons t ts =>
    have ht := h t rfl
    have hs : step ⟨.operator name?, frames⟩ t = step ⟨.operator none, frames⟩ t := by
      unfold step stepOperator
      cases hk : t.kind <;> simp_all
    rw [run, run, hs]
    cases frames <;> rfl

/-- Behind the parenthesis that opens arguments an operand has to start; a parenthesis that closes
them at once is the one mistake with a cause of its own. -/
theorem run_argument (n o : Token) (frames : List Frame) (ts : List Token) :
    run ⟨.argument n o, frames⟩ ts =
      if startsWithClose ts then .error ⟨.argument n o, ts⟩ else run ⟨.operand, frames⟩ ts := by
  cases ts with
  | nil => rfl
  | cons t ts =>
    cases hs : step ⟨.operand, frames⟩ t with
    | none =>
      have hs' : step ⟨.argument n o, frames⟩ t = none := hs
      rw [run_cons_of_stuck hs, run_cons_of_stuck hs']
      simp only [expected]
      split <;> rfl
    | some s' =>
      have hs' : step ⟨.argument n o, frames⟩ t = some s' := hs
      have hc : startsWithClose (t :: ts) = false := by
        cases hk : t.kind <;> simp_all [startsWithClose, step, stepOperand]
      rw [run_cons_of_step hs, run_cons_of_step hs', hc]
      rfl

mutual

theorem run_read (l : Level) (ts : List Token) (frames : List Frame)
    (hl : l = .leaf → ∀ t ∈ ts.head?, t.kind ≠ .plus ∧ t.kind ≠ .minus) :
    run ⟨.operand, frames⟩ ts = (read l ts).bind fun p => run ⟨.operator none, frames⟩ p.2 := by
  match l, ts with
  | .sum, ts =>
    rw [read_chain (.inl rfl), run_read .product ts frames nofun, Level.tighter]
    cases hr : read .product ts with
    | error failure => rfl
    | ok p =>
      have hlt := length_lt_of_read hr
      exact run_readChain .sum p.1 p.2 frames
  | .product, ts =>
    rw [read_chain (.inr rfl), run_read .unary ts frames nofun, Level.tighter]
    cases hr : read .unary ts with
    | error failure => rfl
    | ok p =>
      have hlt := length_lt_of_read hr
      exact run_readChain .product p.1 p.2 frames
  | .unary, [] => rw [read_unary_nil]; rfl
  | .unary, o :: ts =>
    by_cases hp : o.kind = .plus
    · rw [read_unary_plus hp, run_cons_of_step (r := ⟨.operand, frames⟩)]
      · exact run_read .unary ts frames nofun
      · simp [step, stepOperand, hp]
    by_cases hm : o.kind = .minus
    · rw [read_unary_minus hm, run_cons_of_step (r := ⟨.operand, frames⟩)]
      · rw [run_read .unary ts frames nofun]
        cases read .unary ts <;> rfl
      · simp [step, stepOperand, hm]
    rw [read_unary_leaf hp hm]
    exact run_read .leaf (o :: ts) frames fun _ t ht => by cases ht; exact ⟨hp, hm⟩
  | .leaf, [] => rw [read_leaf_nil]; rfl
  | .leaf, o :: ts =>
    have ⟨hp, hm⟩ := hl rfl o rfl
    cases hk : o.kind with
    | number value =>
      rw [read_leaf_number hk, run_cons_of_step (r := ⟨.operator none, frames⟩)]
      · rfl
      · simp [step, stepOperand, hk]
    | leftParen =>
      rw [read_leaf_group hk, run_cons_of_step (r := ⟨.operand, ⟨o, none⟩ :: frames⟩)]
      · rw [run_read .sum ts _ nofun]
        cases hr : read .sum ts with
        | error failure => rfl
        | ok p =>
          have ⟨hs, ht⟩ := stops_of_read hr
          exact run_readClose hs ht (.inl rfl) p.1
      · simp [step, stepOperand, hk]
    | name =>
      rw [read_leaf_name hk, run_cons_of_step (r := ⟨.operator (some o), frames⟩)]
      · exact run_readApplication o ts frames
      · simp [step, stepOperand, hk]
    | _ =>
      rw [read_leaf_error (by rw [hk]; rfl), run_cons_of_stuck]
      · rfl
      · simp_all [step, stepOperand]
termination_by 5 * ts.length + l.height
decreasing_by all_goals simp only [Level.height, List.length_cons] at *; omega

theorem run_readChain (l : Level) (lhs : Node) (ts : List Token) (frames : List Frame) :
    run ⟨.operator none, frames⟩ ts =
      (readChain l lhs ts).bind fun p => run ⟨.operator none, frames⟩ p.2 := by
  match ts with
  | [] => rw [readChain_nil]; rfl
  | o :: ts =>
    cases ho : l.operator? o.kind with
    | none => rw [readChain_stop ho]; rfl
    | some op =>
      have := l.tighter.height_le
      rw [readChain_operator ho, run_cons_of_step (r := ⟨.operand, frames⟩)]
      · have hl : l.tighter ≠ .leaf := by cases l <;> simp_all [Level.operator?, Level.tighter]
        rw [run_read l.tighter ts frames (absurd · hl)]
        cases hr : read l.tighter ts with
        | error failure => rfl
        | ok p =>
          have hlt := length_lt_of_read hr
          exact run_readChain l (.binary op lhs p.1) p.2 frames
      · rcases Level.operator?_eq_some_iff.mp ho with
          ⟨-, hk, -⟩ | ⟨-, hk, -⟩ | ⟨-, hk, -⟩ | ⟨-, hk, -⟩ <;> simp [step, stepOperator, hk]
termination_by 5 * ts.length
decreasing_by all_goals simp only [Level.height, List.length_cons] at *; omega

theorem run_readApplication (n : Token) (ts : List Token) (frames : List Frame) :
    run ⟨.operator (some n), frames⟩ ts =
      (readApplication n ts).bind fun p => run ⟨.operator none, frames⟩ p.2 := by
  match ts with
  | [] => rw [readApplication_nil, run_forget_name (by simp)]; rfl
  | o :: ts =>
    by_cases ho : o.kind = .leftParen
    · rw [run_cons_of_step (r := ⟨.argument n o, ⟨o, some n⟩ :: frames⟩), run_argument]
      · cases hc : startsWithClose ts with
        | true => rw [readApplication_empty ho hc]; rfl
        | false =>
          rw [readApplication_call ho hc, if_neg nofun, run_readOperands n o ts frames]
          cases hr : readOperands ts with
          | error failure => rfl
          | ok p =>
            have ⟨hs, ht, hcomma⟩ := stops_of_readOperands ts hr
            exact run_readClose hs ht (.inr hcomma) _
      · simp [step, stepOperator, ho]
    · rw [readApplication_var ho, run_forget_name (by simpa using ho)]
      rfl
termination_by 5 * ts.length
decreasing_by all_goals simp only [Level.height, List.length_cons] at *; omega

theorem run_readOperands (n o : Token) (ts : List Token) (frames : List Frame) :
    run ⟨.operand, ⟨o, some n⟩ :: frames⟩ ts = (readOperands ts).bind fun p =>
      run ⟨.operator none, ⟨o, some n⟩ :: frames⟩ p.2 := by
  rw [run_read .sum ts _ nofun, readOperands_eq]
  cases hr : read .sum ts with
  | error failure => rfl
  | ok p =>
    have hlt := length_lt_of_read hr
    match p, hlt with
    | (first, []), hlt => rfl
    | (first, c :: left), hlt =>
      by_cases hc : c.kind = .comma
      · simp only [Except.bind, hc, if_true]
        rw [run_cons_of_step (r := ⟨.operand, ⟨o, some n⟩ :: frames⟩),
          run_readOperands n o left frames]
        · cases readOperands left <;> rfl
        · simp [step, stepOperator, nextArgument, hc]
      · simp only [Except.bind, hc, if_false]
termination_by 5 * ts.length + 4
decreasing_by all_goals simp only [Level.height, List.length_cons] at *; omega

end

/-- The pass over all tokens agrees with the reader on whether they are a sum, and on the failure
if they are not. -/
theorem run_start (ts : List Token) : run start ts = (Reader.parse ts).map fun _ => () := by
  rw [parse_eq, start, run_read .sum ts [] nofun]
  cases hr : read .sum ts with
  | error failure => rfl
  | ok p =>
    have ⟨hs, hp⟩ := stops_of_read hr
    match p, hs, hp with
    | (node, []), _, _ => rfl
    | (node, t :: rest), hs, hp =>
      have hstuck : step ⟨.operator none, []⟩ t = none := by
        rw [step_of_stops [] hs hp]
        split <;> rfl
      exact run_cons_of_stuck hstuck _

theorem run_eq_ok_iff {s : Track} {ts : List Token} :
    run s ts = .ok () ↔ ∃ s', steps s ts = some s' ∧ s'.accepts = true := by
  induction ts generalizing s with
  | nil =>
    rw [run, steps]
    by_cases ha : s.accepts = true <;> simp [ha]
  | cons t ts ih =>
    rw [run, steps]
    cases hs : s.step t with
    | none => simp
    | some s' => simpa using ih

/-- Where the pass stops, what it has taken so far was all possible, and the next token is not. -/
theorem run_eq_error {s : Track} {ts : List Token} {failure : Failure}
    (h : run s ts = .error failure) :
    ∃ taken s', ts = taken ++ failure.rest ∧ steps s taken = some s' ∧
      failure.expected = s'.expected failure.rest ∧
      match failure.rest with
      | [] => s'.accepts = false
      | t :: _ => s'.step t = none := by
  induction ts generalizing s with
  | nil =>
    cases ha : s.accepts with
    | true => simp [run, ha] at h
    | false =>
      simp only [run, ha, Bool.false_eq_true, if_false, Except.error.injEq] at h
      cases h
      exact ⟨[], s, rfl, rfl, rfl, ha⟩
  | cons t ts ih =>
    cases hstep : s.step t with
    | none =>
      rw [run_cons_of_stuck hstep] at h
      cases h
      exact ⟨[], s, rfl, rfl, rfl, hstep⟩
    | some s₁ =>
      rw [run_cons_of_step hstep] at h
      obtain ⟨taken, s', hts, hs, he⟩ := ih h
      refine ⟨t :: taken, s', by rw [List.cons_append, ← hts], ?_, he⟩
      rw [steps, hstep]
      exact hs

theorem steps_append {s : Track} {ts us : List Token} :
    steps s (ts ++ us) = (steps s ts).bind fun s' => steps s' us := by
  induction ts generalizing s with
  | nil => rfl
  | cons t ts ih =>
    rw [List.cons_append, steps, steps]
    cases s.step t with
    | none => rfl
    | some s' => exact ih

end Track

end Formula
