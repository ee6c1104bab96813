import Formula.Proofs.Printing
import Formula.Proofs.Record
import Formula.Proofs.Signs
import Formula.Context.Standard

/-! Trees that a program assembles may hold literals with a sign and ternary nodes, for which there
is no notation. Their text is that of a tree with a negation and a call in their place. What is read
from the text is that other tree, and it has the same value in every context that clamps as the
operator does. -/

namespace Formula

open Answer (outcome Sim)
open Token (scanAll_punctuation)

/-- The trees whose text can be read: names are names of the language, calls have arguments, and
literals are numbers, perhaps with a sign. -/
inductive Printable : Node → Prop
  | literal {value} : ¬ value.isNaN → Printable (.literal value)
  | var {name} : IsName name → Printable (.var name)
  | call {name arguments} : IsName name → arguments ≠ [] →
      (∀ t ∈ arguments, Printable t) → Printable (.call name arguments)
  | unary {op operand} : Printable operand → Printable (.unary op operand)
  | binary {op lhs rhs} : Printable lhs → Printable rhs → Printable (.binary op lhs rhs)
  | ternary {op first second third} : Printable first → Printable second → Printable third →
      Printable (.ternary op first second third)

namespace Node

mutual

/-- The tree with a negation for the sign of a literal and a call for a ternary node. -/
def normal : Node → Node
  | .literal value =>
    if Number.isNegative value then .unary .negate (.literal (-value)) else .literal value
  | .var name => .var name
  | .call name arguments => .call name (normalAll arguments)
  | .unary op operand => .unary op operand.normal
  | .binary op lhs rhs => .binary op lhs.normal rhs.normal
  | .ternary op first second third => .call op.name [first.normal, second.normal, third.normal]

def normalAll : List Node → List Node
  | [] => []
  | t :: nodes => t.normal :: normalAll nodes

end

theorem normalAll_eq (nodes : List Node) : normalAll nodes = nodes.map normal := by
  induction nodes with
  | nil => rfl
  | cons t nodes ih => rw [normalAll, ih, List.map_cons]

theorem print_ternary (op : TernaryOp) (first second third : Node) :
    print (.ternary op first second third) = print (.call op.name [first, second, third]) := by
  apply String.toList_inj.mp
  simp [print, printAll, String.intercalate_cons_cons]

end Node

theorem isName_name (op : TernaryOp) : IsName op.name := by
  cases op
  exact ⟨'c', ['l', 'a', 'm', 'p'], rfl, by simp, by simp⟩

theorem literalText_of_isNegative {value : Float} (hnan : ¬ value.isNaN)
    (hneg : Number.isNegative value) (hinf : value ≠ -Number.infinity) :
    (Node.literalText value).toList = '-' :: (Node.literalText (-value)).toList := by
  have hpos : ¬ Number.isNegative (-value) := by simp [Number.isNegative_neg hnan, hneg]
  -- Neither the literal nor the one without its sign is written in one of the two special ways.
  have hvalue : value ≠ Number.infinity := by
    rintro rfl
    exact Number.not_isNegative_infinity hneg
  have hvalue' : -value ≠ Number.infinity := by
    intro h
    rw [← h, Number.neg_neg_of_not_isNaN hnan] at hinf
    exact hinf rfl
  have habs' : -value ≠ -Number.infinity := by
    intro h
    rw [h] at hpos
    exact hpos Number.isNegative_neg_infinity
  simp only [Node.literalText, Number.beq_infinity_iff, Number.beq_neg_infinity_iff, hvalue, hinf,
    hvalue', habs', if_false]
  exact Number.toList_plain_of_isNegative hnan hneg

theorem denotesOperand_of_isNegative {value : Float} (hnan : ¬ value.isNaN)
    (hneg : Number.isNegative value) :
    DenotesOperand (Node.literalText value) (.unary .negate (.literal (-value))) := by
  have hpos : ¬ Number.isNegative (-value) := by simp [Number.isNegative_neg hnan, hneg]
  have habs := (denotes_literal (Number.isNaN_neg hnan) hpos).operand
  by_cases hinf : value = -Number.infinity
  · subst hinf
    have h : Denotes (Node.print (.unary .negate (.literal Number.infinity))) _ :=
      denotes_unary habs
    exact h.operand
  · intro offset
    rw [literalText_of_isNegative hnan hneg hinf, scanAll_punctuation rfl]
    exact .negative rfl (habs _)

theorem Printable.denotesOperand {t : Node} (h : Printable t) :
    DenotesOperand t.print t.normal := by
  induction h with
  | @literal value hnan =>
    rw [Node.normal]
    split
    · exact denotesOperand_of_isNegative hnan ‹_›
    · exact (denotes_literal hnan ‹_›).operand
  | var hname => exact (denotes_name hname).operand
  | call hname hne _ ih =>
    rw [Node.normal, Node.normalAll_eq]
    exact (denotes_call Node.normal hname hne ih).operand
  | unary _ ih => exact (denotes_unary ih).operand
  | binary _ _ ihl ihr => exact (denotes_binary ihl ihr).operand
  | @ternary op first second third _ _ _ ih₁ ih₂ ih₃ =>
    rw [Node.print_ternary]
    refine (denotes_call Node.normal (isName_name op) (by simp) ?_).operand
    simp [ih₁, ih₂, ih₃]

variable {σ : Type}

/-- The context knows the name of each ternary operator, on three arguments, as the function that
the operator computes, and keeps its state: it clamps as the operator does. -/
def ResolvesTernary (context : Context σ) : Prop :=
  ∀ (op : TernaryOp) (x y z : Float) (state : σ),
    outcome (context.resolve op.name [x, y, z]) state = (.ok (op.apply x y z), state)

theorem resolvesTernary_standard : ResolvesTernary (σ := σ) Standard.context := by
  intro op x y z state
  cases op
  rfl

/-- The answers of the second list are those of the first and, anywhere among them, calls that stand
for ternary nodes. -/
inductive WithTernary : List Resolution → List Resolution → Prop
  | nil : WithTernary [] []
  | both {xs ys} (r : Resolution) : WithTernary xs ys → WithTernary (xs ++ [r]) (ys ++ [r])
  | ternary {xs ys} (op : TernaryOp) (x y z : Float) : WithTernary xs ys →
      WithTernary xs (ys ++ [⟨op.name, [x, y, z], .ok (op.apply x y z)⟩])

def SameButTernary (s t : σ × List Resolution) : Prop := s.1 = t.1 ∧ WithTernary s.2 t.2

variable {context : Context σ}

theorem sim_resolve (name : String) (arguments : List Float) :
    Sim SameButTernary (context.recorded.resolve name arguments)
      (context.recorded.resolve name arguments) := by
  rintro ⟨state, xs⟩ ⟨_, ys⟩ ⟨rfl, h⟩
  rw [Context.outcome_recording, Context.outcome_recording]
  exact ⟨rfl, rfl, .both _ h⟩

theorem sim_ternary (h : ResolvesTernary context) (op : TernaryOp) (x y z : Float) :
    Sim SameButTernary (pure (op.apply x y z)) (context.recorded.resolve op.name [x, y, z]) := by
  rintro ⟨state, xs⟩ ⟨_, ys⟩ ⟨rfl, hxs⟩
  rw [Context.outcome_recording, h op x y z state]
  exact ⟨rfl, rfl, .ternary op x y z hxs⟩

/-- A tree and its normal form are evaluated alike, but for the calls in place of ternary nodes. -/
theorem Printable.sim_evaluate_normal {t : Node} (h : Printable t)
    (hc : ResolvesTernary context) :
    Sim SameButTernary (t.evaluate context.recorded) (t.normal.evaluate context.recorded) := by
  induction h with
  | @literal value hnan =>
    rw [Node.normal]
    split
    · have h : Sim SameButTernary (σ := σ × List Resolution) (pure value) (pure (-(-value))) := by
        rw [Number.neg_neg_of_not_isNaN hnan]
        exact .pure value
      exact h
    · exact .pure value
  | @var name _ => exact sim_resolve name []
  | @call name arguments _ _ _ ih =>
    rw [Node.normal, Node.normalAll_eq]
    apply (Node.sim_evaluateAll Node.normal ih).bind
    intro values _
    exact sim_resolve name values
  | unary _ ih =>
    apply ih.bind
    intro x _
    exact .pure _
  | binary _ _ ihl ihr =>
    apply ihl.bind
    intro x _
    apply ihr.bind
    intro y _
    exact .pure _
  | @ternary op first second third _ _ _ ih₁ ih₂ ih₃ =>
    rw [Node.normal, Node.evaluate, Node.evaluate]
    simp only [Node.evaluateAll, bind_assoc, pure_bind]
    apply ih₁.bind
    intro x _
    apply ih₂.bind
    intro y _
    apply ih₃.bind
    intro z _
    exact sim_ternary hc op x y z

theorem Printable.outcome_normal {t : Node} (h : Printable t) (hc : ResolvesTernary context)
    (state : σ) : ∃ result final answers answers',
      outcome (t.evaluate context.recorded) (state, []) = (result, final, answers) ∧
      outcome (t.normal.evaluate context.recorded) (state, []) = (result, final, answers') ∧
      WithTernary answers answers' := by
  have hsim := h.sim_evaluate_normal hc (state, []) (state, []) ⟨rfl, .nil⟩
  rcases ht : outcome (t.evaluate context.recorded) (state, []) with ⟨result, final, answers⟩
  rcases hn : outcome (t.normal.evaluate context.recorded) (state, []) with
    ⟨result', final', answers'⟩
  rw [ht, hn] at hsim
  obtain ⟨rfl, rfl, hanswers⟩ := hsim
  exact ⟨result, final, answers, answers', rfl, rfl, hanswers⟩

/-- What is read from the text of a printable tree is its normal form, and that has the same value
or the same error in every context that knows ternary operators as functions, as the standard one
does. The questions to the context are the same but for the calls that stand for ternary nodes. -/
theorem Printable.parse_print {t : Node} (h : Printable t) :
    parse t.print = .ok t.normal ∧
    (∀ (σ : Type) (context : Context σ), ResolvesTernary context →
      t.normal.evaluate context = t.evaluate context ∧
      ∀ state, ∃ result final answers answers',
        outcome (t.evaluate context.recorded) (state, []) = (result, final, answers) ∧
        outcome (t.normal.evaluate context.recorded) (state, []) = (result, final, answers') ∧
        WithTernary answers answers') ∧
    ∀ σ : Type, ResolvesTernary (σ := σ) Standard.context := by
  refine ⟨?_, ?_, fun _ => resolvesTernary_standard⟩
  · exact parseSource_eq_ok.mpr ((h.denotesOperand 0).of_unary (by decide))
  · intro σ context hc
    refine ⟨?_, h.outcome_normal hc⟩
    apply Answer.ext
    intro state
    obtain ⟨result, final, _, _, ht, hnormal, -⟩ := h.outcome_normal hc state
    rw [Node.outcome_evaluate_of_recording ht, Node.outcome_evaluate_of_recording hnormal]

def signedClamp : Node :=
  .ternary .clamp (.binary .subtract (.literal (-1.5)) (.literal (-Number.infinity)))
    (.unary .negate (.literal (-0))) (.var "pi")

theorem Printable.parse_print_signedClamp :
    Printable signedClamp ∧
    parse "clamp((-1.5 - (-1e999)), (--0), pi)" = .ok (.call "clamp"
      [.binary .subtract (.unary .negate (.literal 1.5))
          (.unary .negate (.literal Number.infinity)),
        .unary .negate (.unary .negate (.literal 0)), .var "pi"]) ∧
    signedClamp.normal.evaluate (Standard.context (σ := Unit)) =
      signedClamp.evaluate Standard.context := by
  have h : Printable signedClamp := by
    refine .ternary (.binary (.literal ?_) (.literal ?_)) (.unary (.literal ?_)) (.var ?_)
    · decide +kernel
    · decide +kernel
    · decide +kernel
    · exact ⟨'p', ['i'], rfl, by simp, by simp⟩
  have htext : signedClamp.print = "clamp((-1.5 - (-1e999)), (--0), pi)" := by decide +kernel
  obtain ⟨hparse, hvalue, hstandard⟩ := Printable.parse_print h
  rw [htext] at hparse
  exact ⟨h, hparse, (hvalue Unit Standard.context (hstandard Unit)).1⟩

end Formula
