import Formula.Proofs.Shadowing
import Formula.Proofs.Templates
import Formula.Proofs.Written

/-! Texts that are numbers. The text of a finite double, in whichever form it is written, is one
token, or a minus and one token. Its tree has no names, so that it has the same value in every
context and asks it nothing: the double that was written. -/

namespace Formula

open Answer (outcome)
open Number (WrittenAs Unsigned isNegative plain scientific)

/-- The tokens of a text that is a number, and the tree that the sign makes of it. -/
inductive Constant : String → Float → Node → Prop
  | positive {text x} : isNegative x = false → Token.ofText text = [⟨.number x, text, 0⟩] →
      Constant text x (.literal x)
  | negative {literal x} : isNegative x →
      Token.ofText ("-" ++ literal) = [⟨.minus, "-", 0⟩, ⟨.number (-x), literal, 1⟩] →
      Constant ("-" ++ literal) x (.unary .negate (.literal (-x)))

theorem scanAll_unsigned {literal : List Char} {y : Number.Decimal} (h : Unsigned literal y)
    (offset : Nat) :
    Token.scanAll offset literal = [⟨.number y.toFloat, String.ofList literal, offset⟩] := by
  obtain ⟨d, rest, rfl, hd⟩ := h.exists_cons
  exact scanAll_number hd (h.isNumber.takeNumber_eq (.inl hd)) h.read_eq offset

theorem denotesOperand_unsigned {literal : String} {y : Number.Decimal}
    (h : Unsigned literal.toList y) : DenotesOperand literal (.literal y.toFloat) := by
  intro offset
  rw [scanAll_unsigned h]
  exact .unary (.number rfl)

theorem exists_constant {text : String} {x : Float} (h : WrittenAs text.toList x) :
    ∃ t, Constant text x t ∧ parse text = .ok t := by
  rcases h.cases with ⟨y, hneg, hy, rfl⟩ | ⟨literal, y, hneg, htext, hy, hvalue⟩
  · refine ⟨_, .positive hneg ?_, (denotesOperand_unsigned hy).parse_eq⟩
    rw [Token.ofText, scanAll_unsigned hy, String.ofList_toList]
  · obtain rfl : text = "-" ++ String.ofList literal := by simp [← String.toList_inj, htext]
    rw [← String.toList_ofList (l := literal)] at hy
    have hparse := (denotesOperand_unsigned hy).negative.parse_eq
    rw [hvalue] at hparse
    refine ⟨_, .negative hneg ?_, hparse⟩
    rw [Token.ofText, htext, Token.scanAll_punctuation rfl, ← String.toList_ofList (l := literal),
      scanAll_unsigned hy, hvalue, String.ofList_toList]
    rfl

theorem Constant.names_eq_nil {text : String} {x : Float} {t : Node} (h : Constant text x t) :
    t.names = [] := by
  cases h <;> simp

theorem Constant.outcome_evaluate {σ : Type} {text : String} {x : Float} {t : Node}
    (h : Constant text x t) (hnan : ¬ x.isNaN) (c : Context σ) (state : σ) :
    outcome (t.evaluate c) state = (.ok x, state) := by
  cases h with
  | positive => rfl
  | negative =>
    have hvalue : outcome (Node.evaluate c (.unary .negate (.literal (-x)))) state =
        (.ok (-(-x)), state) := rfl
    rw [hvalue, Number.neg_neg_of_not_isNaN hnan]

/-- A finite double in any of its written forms is a text that is read as a constant: one number, or
a minus and one number. Its tree has no names, and in every context its value is the double that was
written, without a change of the state. -/
theorem evaluate_written (x : Float) (hx : x.isFinite) :
    (∀ text ∈ [plain x, scientific 'e' x, scientific 'E' x], WrittenAs text.toList x) ∧
    ∀ text : String, WrittenAs text.toList x → ∃ t, Constant text x t ∧ parse text = .ok t ∧
      t.names = [] ∧
      ∀ (σ : Type) (c : Context σ) (state : σ), outcome (t.evaluate c) state = (.ok x, state) := by
  constructor
  · have hplain := Number.writtenAs_plain hx
    have hlower := Number.writtenAs_scientific (.inl rfl) hx
    have hupper := Number.writtenAs_scientific (.inr rfl) hx
    simpa using ⟨hplain, hlower, hupper⟩
  · intro text h
    obtain ⟨t, hconstant, hparse⟩ := exists_constant h
    exact ⟨t, hconstant, hparse, hconstant.names_eq_nil,
      fun σ c state => hconstant.outcome_evaluate (Number.not_isNaN_of_isFinite hx) c state⟩

theorem evaluate_written_minus :
    (-2.5e-7 : Float).isFinite ∧ scientific 'E' (-2.5e-7) = "-2.5E-7" ∧
      ∃ t, Constant "-2.5E-7" (-2.5e-7) t ∧ parse "-2.5E-7" = .ok t ∧ t.names = [] ∧
        ∀ (σ : Type) (c : Context σ) (state : σ),
          outcome (t.evaluate c) state = (.ok (-2.5e-7), state) := by
  have hfinite : (-2.5e-7 : Float).isFinite := by decide +kernel
  have htext : scientific 'E' (-2.5e-7) = "-2.5E-7" := by decide +kernel
  obtain ⟨hwritten, hconstant⟩ := evaluate_written (-2.5e-7) hfinite
  exact ⟨hfinite, htext, hconstant "-2.5E-7" (hwritten "-2.5E-7" (by simp [htext]))⟩

end Formula
