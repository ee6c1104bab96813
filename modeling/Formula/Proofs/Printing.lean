import Formula.Node.Printer
import Formula.Proofs.Borders
import Formula.Proofs.Numerals
import Formula.Proofs.Reading

/-! Printed trees. The trees that texts denote are those without ternary nodes whose names are
names of the language, whose calls have arguments, and whose literals are numbers without a sign.
The text of such a tree is one leaf of the grammar, and it denotes the tree. -/

namespace Formula

open Number (infinityBits)
open Token (scanAll scanAll_append scanAll_punctuation scanAll_blanks_append)

/-- A letter or an underscore, then letters, digits and underscores, all of them ASCII. -/
def IsName (name : String) : Prop :=
  ∃ c cs, name.toList = c :: cs ∧ (c.isAlpha ∨ c = '_') ∧ ∀ d ∈ cs, d.isAlphanum ∨ d = '_'

/-- The trees that can be written down in the notation that is read. -/
inductive GrammarShaped : Node → Prop
  | literal {value} : ¬ value.isNaN → ¬ Number.isNegative value → GrammarShaped (.literal value)
  | var {name} : IsName name → GrammarShaped (.var name)
  | call {name arguments} : IsName name → arguments ≠ [] →
      (∀ t ∈ arguments, GrammarShaped t) → GrammarShaped (.call name arguments)
  | unary {op operand} : GrammarShaped operand → GrammarShaped (.unary op operand)
  | binary {op lhs rhs} : GrammarShaped lhs → GrammarShaped rhs →
      GrammarShaped (.binary op lhs rhs)

/-- Wherever the text stands, it is a leaf that denotes the tree. -/
def Denotes (text : String) (t : Node) : Prop :=
  ∀ offset, Derives .leaf (scanAll offset text.toList) t

def DenotesOperand (text : String) (t : Node) : Prop :=
  ∀ offset, Derives .unary (scanAll offset text.toList) t

/-- Wherever the text stands, it is a sum that denotes the tree. -/
def DenotesSum (text : String) (t : Node) : Prop :=
  ∀ offset, Derives .sum (scanAll offset text.toList) t

theorem Denotes.operand {text : String} {t : Node} (h : Denotes text t) : DenotesOperand text t :=
  fun offset => .unary (h offset)

theorem Derives.of_unary {l : Level} (hl : l ≠ .leaf) {ts : List Token} {t : Node}
    (h : Derives .unary ts t) : Derives l ts t := by
  cases l with
  | leaf => exact absurd rfl hl
  | unary => exact h
  | product => exact .product h
  | sum => exact .sum (.product h)

theorem DenotesOperand.sum {text : String} {t : Node} (h : DenotesOperand text t) :
    DenotesSum text t := fun offset => (h offset).of_unary (by decide)

theorem startsName_iff {c : Char} : Token.startsName c ↔ c.isAlpha ∨ c = '_' := by
  simp [Token.startsName]

theorem inName_iff {c : Char} : Token.inName c ↔ c.isAlphanum ∨ c = '_' := by
  simp only [Token.inName, Token.startsName, Char.isAlphanum, Bool.or_eq_true, decide_eq_true_eq]
  tauto

theorem scanAll_number {d : Char} {rest : List Char} {x : Float} (hd : d.isDigit)
    (htake : Token.takeNumber (d :: rest) = (d :: rest, []))
    (hread : Number.read (d :: rest) = .ok x) (offset : Nat) :
    scanAll offset (d :: rest) = [⟨.number x, String.ofList (d :: rest), offset⟩] := by
  have hname : Token.inName d := by simp [Token.inName, hd]
  refine Token.scanAll_lexeme (Token.isBlank_of_inName hname) ?_ offset
  simp [Token.lexeme, Token.punctuation?_of_inName hname, Token.startsName_of_isDigit hd, hd,
    htake, Token.numberKind, hread]

theorem scanAll_positional {cs : List Char} {x : Number.Decimal} (h : Number.Positional cs x)
    (offset : Nat) :
    scanAll offset cs = [⟨.number x.toFloat, String.ofList cs, offset⟩] := by
  obtain ⟨d, rest, rfl, hd⟩ := h.exists_cons
  exact scanAll_number hd h.takeNumber_eq h.read_eq offset

theorem scanAll_isName {name : String} (h : IsName name) (offset : Nat) :
    scanAll offset name.toList = [⟨.name, name, offset⟩] := by
  obtain ⟨c, cs, hname, hc, hcs⟩ := h
  have hc := startsName_iff.mpr hc
  have hcs : ∀ d ∈ cs, Token.inName d := fun d hd => inName_iff.mpr (hcs d hd)
  rw [hname, Token.scanAll_name hc hcs, ← hname, String.ofList_toList]

theorem denotes_name {name : String} (h : IsName name) : Denotes name (.var name) := by
  intro offset
  rw [scanAll_isName h]
  exact .var rfl

theorem scanAll_overflow (offset : Nat) :
    scanAll offset "1e999".toList = [⟨.number Number.infinity, "1e999", offset⟩] := by
  have hl : Token.lexeme '1' "e999".toList = (.number Number.infinity, "1e999".toList, []) := by
    decide +kernel
  exact Token.scanAll_lexeme (by decide) hl offset

theorem denotes_literal {value : Float} (hnan : ¬ value.isNaN) (hneg : ¬ Number.isNegative value) :
    Denotes (Node.literalText value) (.literal value) := by
  intro offset
  unfold Node.literalText
  split
  · rename_i h
    rw [scanAll_overflow, Number.beq_infinity_iff.mp h]
    exact .number rfl
  · rename_i hinf
    rw [if_neg]
    · have hle := Number.toBits_le_infinityBits.mpr ⟨hnan, hneg⟩
      have hlt : value.toBits.toNat < infinityBits := by
        refine Nat.lt_of_le_of_ne hle fun heq => hinf ?_
        rw [Number.beq_infinity_iff, ← Number.ofBits_toNat value, heq]
        rfl
      obtain ⟨y, hy, rfl⟩ := Number.exists_positional_plain hlt
      rw [scanAll_positional hy]
      exact .number rfl
    · intro h
      rw [Number.beq_neg_infinity_iff.mp h] at hneg
      exact hneg Number.isNegative_neg_infinity

theorem separate_cons {c : Char} (h : Token.isBorder c) (cs : List Char) :
    Token.Separate (c :: cs) := by
  rintro d hd
  cases hd
  exact h

/-- One behind the other, the texts have the tokens that they have by themselves. -/
def Token.Apart (cs ds : List Char) : Prop :=
  ∀ offset, scanAll offset (cs ++ ds) =
    scanAll offset cs ++ scanAll (offset + Text.byteLength cs) ds

/-- Behind a fixed character in front of which tokens end, whatever follows stands apart. A sign
does so nowhere else: it may belong to an exponent. -/
theorem Token.apart_of_punctuation {c : Char} {kind : Token.Kind}
    (hc : Token.punctuation? c = some kind) (hborder : Token.isBorder c) (cs ds : List Char) :
    Token.Apart (cs ++ [c]) ds := by
  intro offset
  rw [List.append_assoc, List.singleton_append, scanAll_append (separate_cons hborder ds),
    scanAll_append (separate_cons hborder []), scanAll_punctuation hc, scanAll_punctuation hc,
    Token.scanAll_nil, List.append_assoc, Text.byteLength_append, Nat.add_assoc]
  rfl

theorem DenotesSum.group {text : String} {t : Node} (h : DenotesSum text t) :
    Denotes ("(" ++ text ++ ")") t := by
  have htext : ("(" ++ text ++ ")").toList = '(' :: (text.toList ++ [')']) := by simp
  intro offset
  rw [htext, scanAll_punctuation rfl, scanAll_append (separate_cons (by decide) []),
    scanAll_punctuation rfl, Token.scanAll_nil]
  exact .group rfl (h _) rfl

theorem BinaryOp.symbol_spec (op : BinaryOp) : ∃ c kind l, op.symbol.toList = [c] ∧
    Token.punctuation? c = some kind ∧ Level.operator? l kind = some op := by
  cases op
  · exact ⟨'+', .plus, .sum, rfl, rfl, rfl⟩
  · exact ⟨'-', .minus, .sum, rfl, rfl, rfl⟩
  · exact ⟨'*', .star, .product, rfl, rfl, rfl⟩
  · exact ⟨'/', .slash, .product, rfl, rfl, rfl⟩

theorem Derives.sum_of_operator {l : Level} {kind : Token.Kind} {op : BinaryOp}
    {ts : List Token} {t : Node} (ho : l.operator? kind = some op) (h : Derives l ts t) :
    Derives .sum ts t := by
  cases l with
  | sum => exact h
  | product => exact .sum h
  | unary => cases ho
  | leaf => cases ho

theorem Level.ne_leaf_of_operator {l : Level} {kind : Token.Kind} {op : BinaryOp}
    (h : l.operator? kind = some op) : l ≠ .leaf ∧ l.tighter ≠ .leaf := by
  rcases Level.operator?_eq_some_iff.mp h with ⟨rfl, -⟩ | ⟨rfl, -⟩ | ⟨rfl, -⟩ | ⟨rfl, -⟩ <;>
    exact ⟨nofun, nofun⟩

theorem DenotesOperand.positive {text : String} {t : Node} (h : DenotesOperand text t) :
    DenotesOperand ("+" ++ text) t := by
  have htext : ("+" ++ text).toList = '+' :: text.toList := by simp
  intro offset
  rw [htext, scanAll_punctuation rfl]
  exact .positive rfl (h _)

theorem DenotesOperand.negative {text : String} {t : Node} (h : DenotesOperand text t) :
    DenotesOperand ("-" ++ text) (.unary .negate t) := by
  have htext : ("-" ++ text).toList = '-' :: text.toList := by simp
  intro offset
  rw [htext, scanAll_punctuation rfl]
  exact .negative rfl (h _)

theorem denotesSum_operation {op : BinaryOp} {lhs rhs gap gap' : String} {t u : Node}
    (hl : DenotesOperand lhs t) (hapart : ∀ ds, Token.Apart lhs.toList (gap.toList ++ ds))
    (hgap : Text.trimStart gap.toList = []) (hgap' : Text.trimStart gap'.toList = [])
    (hr : DenotesOperand rhs u) :
    DenotesSum (lhs ++ gap ++ op.symbol ++ gap' ++ rhs) (.binary op t u) := by
  obtain ⟨c, kind, l, hsymbol, hc, hop⟩ := op.symbol_spec
  obtain ⟨hlevel, htighter⟩ := Level.ne_leaf_of_operator hop
  have htext : (lhs ++ gap ++ op.symbol ++ gap' ++ rhs).toList =
      lhs.toList ++ (gap.toList ++ c :: (gap'.toList ++ rhs.toList)) := by
    simp [hsymbol]
  intro offset
  rw [htext, hapart, scanAll_blanks_append hgap, scanAll_punctuation hc,
    scanAll_blanks_append hgap']
  exact (((hl _).of_unary hlevel).join hop ((hr _).of_unary htighter)).sum_of_operator hop

/-- Texts with commas between them, and blanks behind the commas, are arguments. -/
theorem derives_arguments {separator : String} {gap : List Char}
    (hseparator : separator.toList = ',' :: gap) (hgap : Text.trimStart gap = [])
    {texts : List String} {trees : List Node} (hne : texts ≠ [])
    (h : List.Forall₂ DenotesSum texts trees) (offset : Nat) :
    DerivesAll (scanAll offset (separator.intercalate texts).toList) trees := by
  induction h generalizing offset with
  | nil => contradiction
  | @cons text t texts trees ht hts ih =>
    cases hts with
    | nil =>
      rw [String.intercalate_singleton]
      exact .single (ht _)
    | @cons text' u texts trees hu hts =>
      have htext : (separator.intercalate (text :: text' :: texts)).toList = text.toList ++
          ',' :: (gap ++ (separator.intercalate (text' :: texts)).toList) := by
        rw [String.intercalate_cons_cons, String.toList_append, String.toList_append, hseparator]
        simp
      rw [htext, scanAll_append (separate_cons (by decide) _), scanAll_punctuation rfl,
        scanAll_blanks_append hgap]
      exact .cons (ht _) rfl (ih (by simp) _)

theorem denotes_application {separator : String} {gap : List Char}
    (hseparator : separator.toList = ',' :: gap) (hgap : Text.trimStart gap = [])
    {name : String} {texts : List String} {trees : List Node} (hname : IsName name)
    (hne : texts ≠ []) (h : List.Forall₂ DenotesSum texts trees) :
    Denotes (name ++ "(" ++ separator.intercalate texts ++ ")") (.call name trees) := by
  have htext : (name ++ "(" ++ separator.intercalate texts ++ ")").toList = name.toList ++
      '(' :: ((separator.intercalate texts).toList ++ [')']) := by
    simp
  intro offset
  rw [htext, scanAll_append (separate_cons (by decide) _), scanAll_isName hname,
    scanAll_punctuation rfl, scanAll_append (separate_cons (by decide) []),
    scanAll_punctuation rfl, Token.scanAll_nil]
  exact .call rfl rfl (derives_arguments hseparator hgap hne h _) rfl

theorem denotes_unary {op : UnaryOp} {operand t : Node} (h : DenotesOperand operand.print t) :
    Denotes (Node.print (.unary op operand)) (.unary op t) := by
  cases op
  have htext : Node.print (.unary .negate operand) = "(" ++ ("-" ++ operand.print) ++ ")" := by
    rw [Node.print]
    rfl
  rw [htext]
  exact h.negative.sum.group

theorem denotes_binary {op : BinaryOp} {lhs rhs t u : Node} (hl : DenotesOperand lhs.print t)
    (hr : DenotesOperand rhs.print u) :
    Denotes (Node.print (.binary op lhs rhs)) (.binary op t u) := by
  have htext : Node.print (.binary op lhs rhs) =
      "(" ++ (lhs.print ++ " " ++ op.symbol ++ " " ++ rhs.print) ++ ")" := by
    simp [Node.print, String.append_assoc]
  have hapart (ds : List Char) : Token.Apart lhs.print.toList (" ".toList ++ ds) :=
    fun offset => scanAll_append (separate_cons (by decide) ds) offset _
  rw [htext]
  exact (denotesSum_operation hl hapart rfl rfl hr).group

theorem printAll_eq (nodes : List Node) : Node.printAll nodes = nodes.map Node.print := by
  induction nodes with
  | nil => rfl
  | cons t nodes ih => rw [Node.printAll, ih, List.map_cons]

theorem denotes_call (f : Node → Node) {name : String} {arguments : List Node}
    (hname : IsName name) (hne : arguments ≠ [])
    (h : ∀ t ∈ arguments, DenotesOperand t.print (f t)) :
    Denotes (Node.print (.call name arguments)) (.call name (arguments.map f)) := by
  rw [Node.print, printAll_eq]
  refine denotes_application rfl rfl hname (by simpa using hne) ?_
  rw [List.forall₂_map_left_iff, List.forall₂_map_right_iff, List.forall₂_same]
  exact fun t ht => (h t ht).sum

theorem GrammarShaped.denotes {t : Node} (h : GrammarShaped t) : Denotes t.print t := by
  induction h with
  | literal hnan hneg => exact denotes_literal hnan hneg
  | var hname => exact denotes_name hname
  | call hname hne _ ih =>
    have h := denotes_call id hname hne fun t ht => (ih t ht).operand
    rwa [List.map_id] at h
  | unary _ ih => exact denotes_unary ih.operand
  | binary _ _ ihl ihr => exact denotes_binary ihl.operand ihr.operand

structure Token.WellFormed (t : Token) : Prop where
  name : t.kind = .name → IsName t.literal
  number : ∀ value, t.kind = .number value → value.toBits.toNat ≤ infinityBits

theorem wellFormed_lexeme (c : Char) (cs : List Char) (offset : Nat) :
    Token.WellFormed ⟨(Token.lexeme c cs).1, String.ofList (Token.lexeme c cs).2.1, offset⟩ := by
  rcases Token.lexeme_cases c cs with ⟨kind, hk, h⟩ | ⟨hc, h⟩ | ⟨hc, h⟩ | h
  · have hne := Token.punctuation?_ne hk
    rw [h]
    exact ⟨fun hname => absurd hname hne.2.1, fun value hv => absurd hv (hne.2.2 value)⟩
  · rw [h]
    refine ⟨fun _ => ⟨c, _, String.toList_ofList, startsName_iff.mp hc, ?_⟩, nofun⟩
    intro d hd
    exact inName_iff.mp (List.mem_takeWhile_imp hd)
  · rw [h]
    obtain ⟨d, tail, hd⟩ := List.exists_cons_of_ne_nil (Token.takeNumber_ne_nil cs hc)
    have happend := Token.takeNumber_append (c :: cs)
    rw [hd, List.cons_append, List.cons.injEq] at happend
    rw [hd, happend.1]
    rcases Token.numberKind_cases (c :: tail) with ⟨value, hread, hn⟩ | hn
    · rw [hn]
      refine ⟨nofun, ?_⟩
      intro v hv
      cases hv
      exact Number.toBits_le_of_read hc hread
    · rw [hn]
      exact ⟨nofun, nofun⟩
  · rw [h]
    exact ⟨nofun, nofun⟩

theorem wellFormed_of_mem_scanAll {offset : Nat} {cs : List Char} {t : Token}
    (h : t ∈ scanAll offset cs) : t.WellFormed := by
  fun_induction scanAll offset cs with
  | case1 => simp at h
  | case2 offset cs first hend ih =>
    rcases List.mem_cons.mp h with rfl | h
    · obtain ⟨c, rest, hc⟩ := List.exists_cons_of_ne_nil (mt Token.isEnd_scan_iff.mpr hend)
      have hfirst : first = Token.scan offset cs := rfl
      rw [hfirst, Token.scan_of_trimStart_cons hc]
      exact wellFormed_lexeme c rest _
    · exact ih h

theorem DerivesAll.nodes_ne_nil {ts : List Token} {nodes : List Node} (h : DerivesAll ts nodes) :
    nodes ≠ [] := by
  cases h <;> simp

mutual

/-- What a text denotes is grammar-shaped. -/
theorem Derives.grammarShaped {l : Level} {ts : List Token} {t : Node} :
    Derives l ts t → (∀ tok ∈ ts, tok.WellFormed) → GrammarShaped t
  | .sum h, hts | .product h, hts | .unary h, hts => h.grammarShaped hts
  | .add hl _ hr, hts | .subtract hl _ hr, hts | .multiply hl _ hr, hts | .divide hl _ hr, hts =>
    .binary (hl.grammarShaped fun tok h => hts tok (by simp [h]))
      (hr.grammarShaped fun tok h => hts tok (by simp [h]))
  | .positive _ h, hts => h.grammarShaped fun tok ht => hts tok (by simp [ht])
  | .negative _ h, hts => .unary (h.grammarShaped fun tok ht => hts tok (by simp [ht]))
  | .number (n := n) hk, hts => by
    have hnum := Number.toBits_le_infinityBits.mp ((hts n (by simp)).number _ hk)
    exact .literal hnum.1 hnum.2
  | .group _ h _, hts => h.grammarShaped fun tok ht => hts tok (by simp [ht])
  | .var (n := n) hk, hts => .var ((hts n (by simp)).name hk)
  | .call (n := n) hk _ h _, hts =>
    .call ((hts n (by simp)).name hk) h.nodes_ne_nil
      (h.grammarShaped fun tok ht => hts tok (by simp [ht]))

theorem DerivesAll.grammarShaped {ts : List Token} {nodes : List Node} :
    DerivesAll ts nodes → (∀ tok ∈ ts, tok.WellFormed) → ∀ t ∈ nodes, GrammarShaped t
  | .single h, hts => by
    simpa using h.grammarShaped hts
  | .cons h _ hs, hts => by
    refine List.forall_mem_cons.mpr ⟨?_, ?_⟩
    · exact h.grammarShaped fun tok hm => hts tok (by simp [hm])
    · exact hs.grammarShaped fun tok hm => hts tok (by simp [hm])

end

/-- The trees that some text denotes are the grammar-shaped ones, and each of these is denoted by
its own text. -/
theorem grammarShaped_iff_parse (t : Node) :
    (GrammarShaped t ↔ ∃ text, parse text = .ok t) ∧
      (GrammarShaped t ↔ parse t.print = .ok t) := by
  have of_parse {text : String} (h : parse text = .ok t) : GrammarShaped t :=
    (parseSource_eq_ok.mp h).grammarShaped fun tok ht => wellFormed_of_mem_scanAll ht
  have parse_print (h : GrammarShaped t) : parse t.print = .ok t :=
    parseSource_eq_ok.mpr (h.denotes 0).of_leaf
  exact ⟨⟨fun h => ⟨_, parse_print h⟩, fun ⟨_, h⟩ => of_parse h⟩, parse_print, of_parse⟩

end Formula
