import Formula.Grammar
import Formula.Node

/-! The grammar as a relation between stretches of tokens and the trees they denote. Chains of
operators are written with the left operand on the same level, so that a tree nests to the left;
a sign that is `+` and a pair of parentheses leave no trace in the tree. -/

namespace Formula

mutual

/-- The tokens form a phrase of the level that denotes the tree. -/
inductive Derives : Level → List Token → Node → Prop
  | sum {ts t} : Derives .product ts t → Derives .sum ts t
  | add {ls rs o lhs rhs} : Derives .sum ls lhs → o.kind = .plus → Derives .product rs rhs →
      Derives .sum (ls ++ o :: rs) (.binary .add lhs rhs)
  | subtract {ls rs o lhs rhs} : Derives .sum ls lhs → o.kind = .minus → Derives .product rs rhs →
      Derives .sum (ls ++ o :: rs) (.binary .subtract lhs rhs)
  | product {ts t} : Derives .unary ts t → Derives .product ts t
  | multiply {ls rs o lhs rhs} : Derives .product ls lhs → o.kind = .star → Derives .unary rs rhs →
      Derives .product (ls ++ o :: rs) (.binary .multiply lhs rhs)
  | divide {ls rs o lhs rhs} : Derives .product ls lhs → o.kind = .slash → Derives .unary rs rhs →
      Derives .product (ls ++ o :: rs) (.binary .divide lhs rhs)
  | unary {ts t} : Derives .leaf ts t → Derives .unary ts t
  | positive {o ts t} : o.kind = .plus → Derives .unary ts t → Derives .unary (o :: ts) t
  | negative {o ts t} : o.kind = .minus → Derives .unary ts t →
      Derives .unary (o :: ts) (.unary .negate t)
  | number {n value} : n.kind = .number value → Derives .leaf [n] (.literal value)
  | group {o c ts t} : o.kind = .leftParen → Derives .sum ts t → c.kind = .rightParen →
      Derives .leaf (o :: (ts ++ [c])) t
  | var {n} : n.kind = .name → Derives .leaf [n] (.var n.literal)
  | call {n o c ts nodes} : n.kind = .name → o.kind = .leftParen → DerivesAll ts nodes →
      c.kind = .rightParen → Derives .leaf (n :: o :: (ts ++ [c])) (.call n.literal nodes)

inductive DerivesAll : List Token → List Node → Prop
  | single {ts t} : Derives .sum ts t → DerivesAll ts [t]
  | cons {c ts us t nodes} : Derives .sum ts t → c.kind = .comma → DerivesAll us nodes →
      DerivesAll (ts ++ c :: us) (t :: nodes)

end

mutual

theorem Derives.ne_nil {l : Level} {ts : List Token} {t : Node} : Derives l ts t → ts ≠ []
  | .sum h => h.ne_nil
  | .product h => h.ne_nil
  | .unary h => h.ne_nil
  | .add _ _ _ | .subtract _ _ _ | .multiply _ _ _ | .divide _ _ _ => by simp
  | .positive _ _ | .negative _ _ | .number _ | .group _ _ _ | .var _ | .call _ _ _ _ => by simp

theorem DerivesAll.ne_nil {ts : List Token} {nodes : List Node} : DerivesAll ts nodes → ts ≠ []
  | .single h => h.ne_nil
  | .cons _ _ _ => by simp

end

theorem Derives.length_lt {l : Level} {ts us rest : List Token} {t : Node} (h : Derives l us t)
    (hts : ts = us ++ rest) : rest.length < ts.length := by
  have := List.length_pos_iff.mpr h.ne_nil
  rw [hts, List.length_append]
  omega

theorem Derives.of_leaf {l : Level} {ts : List Token} {t : Node} (h : Derives .leaf ts t) :
    Derives l ts t := by
  cases l with
  | leaf => exact h
  | unary => exact .unary h
  | product => exact .product (.unary h)
  | sum => exact .sum (.product (.unary h))

theorem Level.operator?_eq_some_iff {l : Level} {k : Token.Kind} {op : BinaryOp} :
    l.operator? k = some op ↔
      (l = .sum ∧ k = .plus ∧ op = .add) ∨ (l = .sum ∧ k = .minus ∧ op = .subtract) ∨
      (l = .product ∧ k = .star ∧ op = .multiply) ∨ (l = .product ∧ k = .slash ∧ op = .divide) := by
  cases l <;> cases k <;> simp [operator?, eq_comm]

/-- The rules for chains in one: an operator of the level joins a phrase of the level and a
phrase of the tighter one. -/
theorem Derives.join {l : Level} {ls rs : List Token} {o : Token} {lhs rhs : Node} {op : BinaryOp}
    (hl : Derives l ls lhs) (ho : l.operator? o.kind = some op) (hr : Derives l.tighter rs rhs) :
    Derives l (ls ++ o :: rs) (.binary op lhs rhs) := by
  rcases Level.operator?_eq_some_iff.mp ho with
    ⟨rfl, hk, rfl⟩ | ⟨rfl, hk, rfl⟩ | ⟨rfl, hk, rfl⟩ | ⟨rfl, hk, rfl⟩
  · exact .add hl hk hr
  · exact .subtract hl hk hr
  · exact .multiply hl hk hr
  · exact .divide hl hk hr

end Formula
