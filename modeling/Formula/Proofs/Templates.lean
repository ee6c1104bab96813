import Formula.Proofs.Printing
import Formula.Proofs.Splicing

/-! Texts put together from texts. Whatever is read as a tree can stand between parentheses, and the
whole is read as the tree that is put together from those of the parts. -/

namespace Formula

open Text (isBlank)

mutual

/-- A text that is put together from texts which are read as trees, and the trees put together in
the same way. -/
inductive Assembled : String → Node → Prop
  | piece {text t} : parse text = .ok t → Assembled text t
  | group {text t} : Assembled text t → Assembled ("(" ++ text ++ ")") t
  | positive {text t} : Assembled text t → Assembled ("+(" ++ text ++ ")") t
  | negative {text t} : Assembled text t → Assembled ("-(" ++ text ++ ")") (.unary .negate t)
  | operation {lhs rhs gap gap' t u} (op : BinaryOp) : Assembled lhs t → Assembled rhs u →
      (∀ c ∈ gap.toList, isBlank c) → (∀ c ∈ gap'.toList, isBlank c) →
      Assembled ("(" ++ lhs ++ ")" ++ gap ++ op.symbol ++ gap' ++ "(" ++ rhs ++ ")")
        (.binary op t u)
  | call {name texts trees} : IsName name → texts ≠ [] → AssembledAll texts trees →
      Assembled (name ++ "(" ++ ",".intercalate texts ++ ")") (.call name trees)

inductive AssembledAll : List String → List Node → Prop
  | nil : AssembledAll [] []
  | cons {text t texts trees} : Assembled text t → AssembledAll texts trees →
      AssembledAll (text :: texts) (t :: trees)

end

theorem denotesSum_of_parse {text : String} {t : Node} (h : parse text = .ok t) :
    DenotesSum text t := by
  intro offset
  exact (parse_eq_ok_iff.mp h).of_same (Token.same_scanAll text.toList 0 offset)

theorem DenotesSum.parse_eq {text : String} {t : Node} (h : DenotesSum text t) :
    parse text = .ok t := parse_eq_ok_iff.mpr (h 0)

theorem DenotesOperand.parse_eq {text : String} {t : Node} (h : DenotesOperand text t) :
    parse text = .ok t := h.sum.parse_eq

/-- Behind the parenthesis that closes a group the tokens do not depend on what is in it. -/
theorem apart_group (text : String) (ds : List Char) :
    Token.Apart ("(" ++ text ++ ")").toList ds := by
  rw [String.toList_append]
  exact Token.apart_of_punctuation rfl (by decide) _ ds

section

variable {text : String} {t : Node}

theorem parse_group (h : parse text = .ok t) : parse ("(" ++ text ++ ")") = .ok t :=
  (denotesSum_of_parse h).group.operand.parse_eq

theorem parse_positive (h : parse text = .ok t) : parse ("+(" ++ text ++ ")") = .ok t := by
  have htext : "+(" ++ text ++ ")" = "+" ++ ("(" ++ text ++ ")") := by
    simp [← String.toList_inj]
  rw [htext]
  exact (denotesSum_of_parse h).group.operand.positive.parse_eq

theorem parse_negative (h : parse text = .ok t) :
    parse ("-(" ++ text ++ ")") = .ok (.unary .negate t) := by
  have htext : "-(" ++ text ++ ")" = "-" ++ ("(" ++ text ++ ")") := by
    simp [← String.toList_inj]
  rw [htext]
  exact (denotesSum_of_parse h).group.operand.negative.parse_eq

end

theorem parse_operation (op : BinaryOp) {lhs rhs gap gap' : String} {t u : Node}
    (hl : parse lhs = .ok t) (hr : parse rhs = .ok u) (hgap : ∀ c ∈ gap.toList, isBlank c)
    (hgap' : ∀ c ∈ gap'.toList, isBlank c) :
    parse ("(" ++ lhs ++ ")" ++ gap ++ op.symbol ++ gap' ++ "(" ++ rhs ++ ")") =
      .ok (.binary op t u) := by
  have hl := (denotesSum_of_parse hl).group.operand
  have hr := (denotesSum_of_parse hr).group.operand
  have h : DenotesSum _ (.binary op t u) := denotesSum_operation hl (fun _ => apart_group lhs _)
    (List.dropWhile_eq_nil_iff.mpr hgap) (List.dropWhile_eq_nil_iff.mpr hgap') hr
  simpa [String.append_assoc] using h.parse_eq

theorem parse_application {name : String} {texts : List String} {trees : List Node}
    (hname : IsName name) (hne : texts ≠ [])
    (h : List.Forall₂ (fun text t => parse text = .ok t) texts trees) :
    parse (name ++ "(" ++ ",".intercalate texts ++ ")") = .ok (.call name trees) := by
  have hparts := h.imp fun _ _ => denotesSum_of_parse
  exact (denotes_application rfl rfl hname hne hparts).operand.parse_eq

mutual

theorem Assembled.parse_eq {text : String} {t : Node} : Assembled text t → parse text = .ok t
  | .piece h => h
  | .group h => parse_group h.parse_eq
  | .positive h => parse_positive h.parse_eq
  | .negative h => parse_negative h.parse_eq
  | .operation op hl hr hgap hgap' => parse_operation op hl.parse_eq hr.parse_eq hgap hgap'
  | .call hname hne h => parse_application hname hne h.parse_eq

theorem AssembledAll.parse_eq {texts : List String} {trees : List Node} :
    AssembledAll texts trees → List.Forall₂ (fun text t => parse text = .ok t) texts trees
  | .nil => .nil
  | .cons h hs => .cons h.parse_eq hs.parse_eq

end

/-- Reading a text that is put together from texts in parentheses puts their trees together, by one
step and by any number of them. -/
theorem parse_templates :
    (∀ text t, parse text = .ok t →
      parse ("(" ++ text ++ ")") = .ok t ∧ parse ("+(" ++ text ++ ")") = .ok t ∧
      parse ("-(" ++ text ++ ")") = .ok (.unary .negate t)) ∧
    (∀ (op : BinaryOp) lhs rhs gap gap' t u, parse lhs = .ok t → parse rhs = .ok u →
      (∀ c ∈ gap.toList, isBlank c) → (∀ c ∈ gap'.toList, isBlank c) →
      parse ("(" ++ lhs ++ ")" ++ gap ++ op.symbol ++ gap' ++ "(" ++ rhs ++ ")") =
        .ok (.binary op t u)) ∧
    (∀ name texts trees, IsName name → texts ≠ [] →
      List.Forall₂ (fun text t => parse text = .ok t) texts trees →
      parse (name ++ "(" ++ ",".intercalate texts ++ ")") = .ok (.call name trees)) ∧
    ∀ text t, Assembled text t → parse text = .ok t :=
  ⟨fun _ _ h => ⟨parse_group h, parse_positive h, parse_negative h⟩,
    fun op _ _ _ _ _ _ hl hr hgap hgap' => parse_operation op hl hr hgap hgap',
    fun _ _ _ => parse_application, fun _ _ => Assembled.parse_eq⟩

/-- One part ends in a point, the other one has a line break and an operator of its own. -/
theorem parse_templates_lineBreak :
    let difference : Node := .binary .subtract (.literal 2) (.var "x")
    parse "1." = .ok (.literal 1) ∧ parse "2 -\nx" = .ok difference ∧
      parse "(2 -\nx)" = .ok difference ∧
      parse "(1.) * (2 -\nx)" = .ok (.binary .multiply (.literal 1) difference) ∧
      parse "f(1.,2 -\nx)" = .ok (.call "f" [.literal 1, difference]) ∧
      parse "-((1.)/(2 -\nx))" =
        .ok (.unary .negate (.binary .divide (.literal 1) difference)) := by
  intro difference
  have hone : parse "1." = .ok (.literal 1) := by
    have htokens : Token.ofText "1." = [⟨.number 1, "1.", 0⟩] := by decide +kernel
    rw [parse_eq_ok_iff, htokens]
    exact .of_leaf (.number (n := ⟨.number 1, "1.", 0⟩) rfl)
  have hdifference : parse "2 -\nx" = .ok difference := by
    have htokens : Token.ofText "2 -\nx" =
        [⟨.number 2, "2", 0⟩] ++ ⟨.minus, "-", 2⟩ :: [⟨.name, "x", 4⟩] := by decide +kernel
    rw [parse_eq_ok_iff, htokens]
    exact .subtract (.of_leaf (.number (n := ⟨.number 2, "2", 0⟩) rfl)) rfl
      (.of_leaf (.var (n := ⟨.name, "x", 4⟩) rfl))
  have hname : IsName "f" := ⟨'f', [], rfl, .inl rfl, by simp⟩
  have hspace : ∀ c ∈ " ".toList, isBlank c := by
    intro c hc
    obtain rfl : c = ' ' := by simpa using hc
    rfl
  have hquotient := @Assembled.operation _ _ "" "" _ _ .divide (.piece hone) (.piece hdifference)
    (by simp) (by simp)
  obtain ⟨hsigned, hoperation, hcall, hassembled⟩ := parse_templates
  have hproduct := hoperation .multiply _ _ " " " " _ _ hone hdifference hspace hspace
  have harguments := hcall "f" _ _ hname (by simp) (.cons hone (.cons hdifference .nil))
  exact ⟨hone, hdifference, (hsigned _ _ hdifference).1, by simpa [BinaryOp.symbol] using hproduct,
    by simpa using harguments, by simpa [BinaryOp.symbol] using hassembled _ _ hquotient.negative⟩

end Formula
