import Formula.Proofs.Relexing
import Formula.Proofs.Substitution
import Formula.Proofs.Track

/-! Substitution in a text. A sum in parentheses can stand wherever a variable stands, and a text in
which it does is read as the tree in which the variable is replaced. The name of a call cannot be
replaced: nothing that is read starts with a parenthesis right behind a closing one. -/

namespace Formula

/-- Tokens that differ by their places only, and by sums in parentheses in the place of the names
that have a tree. -/
inductive Spliced (trees : String → Option Node) : List Token → List Token → Prop
  | nil : Spliced trees [] []
  | keep {t u ts us} : t.Same u → (t.kind = .name → trees t.literal = none) →
      Spliced trees ts us → Spliced trees (t :: ts) (u :: us)
  | splice {n o c inner e ts us} : n.kind = .name → trees n.literal = some e →
      o.kind = .leftParen → Derives .sum inner e → c.kind = .rightParen →
      Spliced trees ts us → Spliced trees (n :: ts) (o :: (inner ++ c :: us))

namespace Spliced

variable {trees : String → Option Node}

theorem of_same {ts us : List Token} (h : List.Forall₂ Token.Same ts us) :
    Spliced (fun _ => none) ts us := by
  induction h with
  | nil => exact .nil
  | cons hsame _ ih => exact .keep hsame (fun _ => rfl) ih

theorem split {ls rs us : List Token} (h : Spliced trees (ls ++ rs) us) :
    ∃ ls' rs', us = ls' ++ rs' ∧ Spliced trees ls ls' ∧ Spliced trees rs rs' := by
  induction ls generalizing us with
  | nil => exact ⟨[], us, rfl, .nil, h⟩
  | cons t ls ih =>
    cases h with
    | keep hsame hname hrest =>
      obtain ⟨ls', rs', rfl, hl, hr⟩ := ih hrest
      exact ⟨_ :: ls', rs', rfl, .keep hsame hname hl, hr⟩
    | splice hn htree ho hinner hc hrest =>
      obtain ⟨ls', rs', rfl, hl, hr⟩ := ih hrest
      exact ⟨_, rs', by simp, .splice hn htree ho hinner hc hl, hr⟩

theorem split_cons {t : Token} {ts us : List Token} (h : Spliced trees (t :: ts) us)
    (ht : t.kind ≠ .name) :
    ∃ u us', us = u :: us' ∧ u.kind = t.kind ∧ Spliced trees ts us' := by
  cases h with
  | keep hsame _ hrest => exact ⟨_, _, rfl, hsame.kind, hrest⟩
  | splice hn => exact absurd hn ht

theorem split_append_cons {ls rs us : List Token} {o : Token}
    (h : Spliced trees (ls ++ o :: rs) us) (ho : o.kind ≠ .name) :
    ∃ ls' o' rs', us = ls' ++ o' :: rs' ∧ o'.kind = o.kind ∧ Spliced trees ls ls' ∧
      Spliced trees rs rs' := by
  obtain ⟨ls', rest, rfl, hl, hrest⟩ := h.split
  obtain ⟨o', rs', rfl, hkind, hr⟩ := hrest.split_cons ho
  exact ⟨ls', o', rs', rfl, hkind, hl, hr⟩

theorem split_between {ts us : List Token} {o c : Token}
    (h : Spliced trees (o :: (ts ++ [c])) us) (ho : o.kind ≠ .name) (hc : c.kind ≠ .name) :
    ∃ o' ts' c', us = o' :: (ts' ++ [c']) ∧ o'.kind = o.kind ∧ c'.kind = c.kind ∧
      Spliced trees ts ts' := by
  obtain ⟨o', rest, rfl, hopen, hrest⟩ := h.split_cons ho
  obtain ⟨ts', c', rs', rfl, hclose, hts, hr⟩ := hrest.split_append_cons hc
  cases hr
  exact ⟨o', ts', c', rfl, hopen, hclose, hts⟩

end Spliced

section Derives

variable {trees : String → Option Node}

theorem Derives.splice_operator {l : Level} {ls rs us : List Token} {o : Token} {op : BinaryOp}
    {lhs rhs : Node} (ho : l.operator? o.kind = some op)
    (hl : ∀ us, Spliced trees ls us → Derives l us (lhs.substitute trees))
    (hr : ∀ us, Spliced trees rs us → Derives l.tighter us (rhs.substitute trees))
    (hs : Spliced trees (ls ++ o :: rs) us) :
    Derives l us ((Node.binary op lhs rhs).substitute trees) := by
  have hname : o.kind ≠ .name := by
    rcases Level.operator?_eq_some_iff.mp ho with ⟨-, h, -⟩ | ⟨-, h, -⟩ | ⟨-, h, -⟩ | ⟨-, h, -⟩ <;>
      simp [h]
  obtain ⟨ls', o', rs', rfl, hkind, hls, hrs⟩ := hs.split_append_cons hname
  exact .join (hl ls' hls) (hkind ▸ ho) (hr rs' hrs)

mutual

/-- A phrase stays one of the same level, and denotes the tree in which the variables are
replaced. -/
theorem Derives.splice {l : Level} {ts : List Token} {t : Node} : Derives l ts t →
    (∀ name, t.Calls name → trees name = none) → ∀ us, Spliced trees ts us →
      Derives l us (t.substitute trees)
  | .sum h, hcalls, us, hs => .sum (h.splice hcalls us hs)
  | .product h, hcalls, us, hs => .product (h.splice hcalls us hs)
  | .unary h, hcalls, us, hs => .unary (h.splice hcalls us hs)
  | .add hl ho hr, hcalls, us, hs | .subtract hl ho hr, hcalls, us, hs =>
    .splice_operator (l := .sum) (by rw [ho]; rfl)
      (hl.splice fun name h => hcalls name (by simp [h]))
      (hr.splice fun name h => hcalls name (by simp [h])) hs
  | .multiply hl ho hr, hcalls, us, hs | .divide hl ho hr, hcalls, us, hs =>
    .splice_operator (l := .product) (by rw [ho]; rfl)
      (hl.splice fun name h => hcalls name (by simp [h]))
      (hr.splice fun name h => hcalls name (by simp [h])) hs
  | .positive ho h, hcalls, us, hs => by
    obtain ⟨o', us', rfl, hkind, hrest⟩ := hs.split_cons (by simp [ho])
    exact .positive (hkind.trans ho) (h.splice hcalls us' hrest)
  | .negative ho h, hcalls, us, hs => by
    obtain ⟨o', us', rfl, hkind, hrest⟩ := hs.split_cons (by simp [ho])
    exact .negative (hkind.trans ho)
      (h.splice (fun name h => hcalls name (by simpa using h)) us' hrest)
  | .number hn, hcalls, us, hs => by
    obtain ⟨n', us', rfl, hkind, hrest⟩ := hs.split_cons (by simp [hn])
    cases hrest
    exact .number (hkind.trans hn)
  | .group ho h hc, hcalls, us, hs => by
    obtain ⟨o', us', c', rfl, hopen, hclose, hts⟩ :=
      hs.split_between (by simp [ho]) (by simp [hc])
    exact .group (hopen.trans ho) (h.splice hcalls us' hts) (hclose.trans hc)
  | .var (n := n) hn, hcalls, us, hs => by
    cases hs with
    | keep hsame hname hrest =>
      cases hrest
      rw [Node.substitute, hname hn, Option.getD_none, ← hsame.literal]
      exact .var (hsame.kind.trans hn)
    | splice _ htree ho hinner hc hrest =>
      cases hrest
      rw [Node.substitute, htree, Option.getD_some]
      exact .group ho hinner hc
  | .call (n := n) hn ho h hc, hcalls, us, hs => by
    cases hs with
    | keep hsame hname hrest =>
      obtain ⟨o', us', c', rfl, hopen, hclose, hts⟩ :=
        hrest.split_between (by simp [ho]) (by simp [hc])
      rw [Node.substitute, Node.substituteAll_eq, ← hsame.literal]
      exact .call (hsame.kind.trans hn) (hopen.trans ho)
        (h.splice (fun t ht name hname => hcalls name (by simp; exact .inl ⟨t, ht, hname⟩)) us' hts)
        (hclose.trans hc)
    | splice _ htree =>
      rw [hcalls n.literal (by simp)] at htree
      cases htree

theorem DerivesAll.splice {ts : List Token} {nodes : List Node} : DerivesAll ts nodes →
    (∀ t ∈ nodes, ∀ name, t.Calls name → trees name = none) → ∀ us, Spliced trees ts us →
      DerivesAll us (nodes.map (Node.substitute trees))
  | .single h, hcalls, us, hs => .single (h.splice (hcalls _ List.mem_cons_self) us hs)
  | .cons h ho hrest, hcalls, us, hs => by
    obtain ⟨ls', o', rs', rfl, hkind, hls, hrs⟩ := hs.split_append_cons (by simp [ho])
    exact .cons (h.splice (hcalls _ List.mem_cons_self) ls' hls) (hkind.trans ho)
      (hrest.splice (fun t ht => hcalls t (List.mem_cons_of_mem _ ht)) rs' hrs)

end

end Derives

theorem Derives.of_same {l : Level} {ts us : List Token} {t : Node} (h : Derives l ts t)
    (hs : List.Forall₂ Token.Same ts us) : Derives l us t := by
  have hsplice := h.splice (fun _ _ => rfl) us (.of_same hs)
  rwa [Node.substitute_none] at hsplice

/-- The name stands among the tokens with a parenthesis right behind it. -/
def HasCall (name : String) (ts : List Token) : Prop :=
  ∃ n o, [n, o] <:+: ts ∧ n.kind = .name ∧ n.literal = name ∧ o.kind = .leftParen

theorem HasCall.mono {name : String} {ts us : List Token} (h : HasCall name ts) (hts : ts <:+: us) :
    HasCall name us := by
  obtain ⟨n, o, hno, h⟩ := h
  exact ⟨n, o, hno.trans hts, h⟩

theorem isInfix_left (ls rs : List Token) (o : Token) : ls <:+: ls ++ o :: rs := ⟨[], o :: rs, rfl⟩

theorem isInfix_right (ls rs : List Token) (o : Token) : rs <:+: ls ++ o :: rs :=
  ⟨ls ++ [o], [], by simp⟩

mutual

theorem Derives.hasCall {name : String} {l : Level} {ts : List Token} {t : Node} :
    Derives l ts t → t.Calls name → HasCall name ts
  | .sum h, hc => h.hasCall hc
  | .product h, hc => h.hasCall hc
  | .unary h, hc => h.hasCall hc
  | .add hl _ hr, hc | .subtract hl _ hr, hc | .multiply hl _ hr, hc | .divide hl _ hr, hc => by
    rcases (Node.calls_binary _ _ _).mp hc with hc | hc
    · exact (hl.hasCall hc).mono (isInfix_left _ _ _)
    · exact (hr.hasCall hc).mono (isInfix_right _ _ _)
  | .positive _ h, hc => (h.hasCall hc).mono (isInfix_right [] _ _)
  | .negative _ h, hc => (h.hasCall ((Node.calls_unary _ _).mp hc)).mono (isInfix_right [] _ _)
  | .number _, hc => absurd hc (Node.calls_literal _)
  | .group _ h _, hc => (h.hasCall hc).mono ⟨[_], [_], rfl⟩
  | .var _, hc => absurd hc (Node.calls_var _)
  | .call hn ho h _, hc => by
    rcases (Node.calls_call _ _).mp hc with hc | rfl
    · exact (h.hasCall hc).mono ⟨[_, _], [_], rfl⟩
    · exact ⟨_, _, ⟨[], _, rfl⟩, hn, rfl, ho⟩

theorem DerivesAll.hasCall {name : String} {ts : List Token} {nodes : List Node} :
    DerivesAll ts nodes → (∃ t ∈ nodes, t.Calls name) → HasCall name ts
  | .single h, hc => h.hasCall (by simpa using hc)
  | .cons h _ hrest, hc => by
    simp only [List.mem_cons, exists_eq_or_imp] at hc
    rcases hc with hc | hc
    · exact (h.hasCall hc).mono (isInfix_left _ _ _)
    · exact (hrest.hasCall hc).mono (isInfix_right _ _ _)

end

theorem Track.step_open_of_close {s r : Track} {c o : Token} (hc : c.kind = .rightParen)
    (ho : o.kind = .leftParen) (hr : s.step c = some r) : r.step o = none := by
  obtain ⟨phase, frames⟩ := s
  cases phase with
  | operand | argument => simp [Track.step, Track.stepOperand, hc] at hr
  | operator name? =>
    simp only [Track.step, Track.stepOperator, hc] at hr
    cases frames with
    | nil => simp [Track.closeFrame] at hr
    | cons frame outer =>
      simp only [Track.closeFrame, Option.some.injEq] at hr
      rw [← hr]
      simp [Track.step, Track.stepOperator, ho]

/-- No phrase has a parenthesis that opens right behind one that closes. -/
theorem not_derives_of_close_open {before after : List Token} {c o : Token} {t : Node}
    (hc : c.kind = .rightParen) (ho : o.kind = .leftParen) :
    ¬ Derives .sum (before ++ c :: o :: after) t := by
  intro h
  have hrun : Track.run .start (before ++ c :: o :: after) = .ok () := by
    rw [Track.run_start, Reader.parse_eq_ok_iff.mpr h]
    rfl
  obtain ⟨s', hsteps, -⟩ := Track.run_eq_ok_iff.mp hrun
  rw [Track.steps_append] at hsteps
  obtain ⟨s, -, hsteps⟩ := Option.bind_eq_some_iff.mp hsteps
  rw [Track.steps] at hsteps
  cases hr : s.step c with
  | none => simp [hr] at hsteps
  | some r => simp [hr, Track.steps, Track.step_open_of_close hc ho hr] at hsteps

end Formula

namespace Formula.Token

open Text (isBlank trimStart byteLength)

/-- The text, whose first byte has the given offset, with other characters in the place of each
name that is `x`. The blanks and the other tokens stay. -/
def replaceName (x : String) (inner : List Char) (offset : Nat) (cs : List Char) : List Char :=
  let first := scan offset cs
  if first.1.isEnd then cs
  else
    let literal := if first.1.kind = .name ∧ first.1.literal = x then inner
      else first.1.literal.toList
    cs.takeWhile isBlank ++ (literal ++ replaceName x inner first.1.stop first.2)
termination_by cs.length
decreasing_by exact scan_rest_length_lt ‹_›

theorem replaceName_of_isEnd {x : String} {inner : List Char} {offset : Nat} {cs : List Char}
    (h : (scan offset cs).1.isEnd) : replaceName x inner offset cs = cs := by
  rw [replaceName]
  exact if_pos h

theorem replaceName_of_not_isEnd {x : String} {inner : List Char} {offset : Nat} {cs : List Char}
    (h : ¬ (scan offset cs).1.isEnd) : replaceName x inner offset cs = cs.takeWhile isBlank ++
      ((if (scan offset cs).1.kind = .name ∧ (scan offset cs).1.literal = x then inner
        else (scan offset cs).1.literal.toList) ++
        replaceName x inner (scan offset cs).1.stop (scan offset cs).2) := by
  rw [replaceName]
  exact if_neg h

theorem exists_replaceName (x : String) (r : List Char) (offset : Nat) (cs : List Char) :
    ∃ p u v, cs = p ++ u ∧ replaceName x ('(' :: r) offset cs = p ++ v ∧ Separate v := by
  fun_induction scanAll offset cs with
  | case1 offset cs first hend =>
    refine ⟨cs, [], [], by simp, ?_, by simp [Separate]⟩
    rw [replaceName_of_isEnd hend, List.append_nil]
  | case2 offset cs first hend ih =>
    have hcs := scan_append (mt isEnd_scan_iff.mpr hend) offset
    rw [replaceName_of_not_isEnd hend]
    split
    · exact ⟨_, _, _, hcs, rfl, by simp [Separate, isBorder]⟩
    · obtain ⟨p, u, v, hu, hv, hsep⟩ := ih
      refine ⟨cs.takeWhile isBlank ++ (first.1.literal.toList ++ p), u, v, ?_, ?_, hsep⟩
      · rw [List.append_assoc, List.append_assoc, ← hu]
        exact hcs
      · rw [List.append_assoc, List.append_assoc, ← hv]

theorem trimStart_takeWhile (cs : List Char) : trimStart (cs.takeWhile isBlank) = [] :=
  List.dropWhile_eq_nil_iff.mpr fun _ hd => List.mem_takeWhile_imp hd

/-- In front of a changed rest that goes on in the same way up to a border, the first token of a
text stays the same. -/
theorem scanAll_replace_rest {offset : Nat} {cs rest' p u v : List Char}
    (hend : ¬ (scan offset cs).1.isEnd) (hrest : (scan offset cs).2 = p ++ u)
    (hrest' : rest' = p ++ v) (hv : Separate v) (other : Nat) :
    ∃ start, scanAll other ((scan offset cs).1.literal.toList ++ rest') =
      ⟨(scan offset cs).1.kind, (scan offset cs).1.literal, other⟩ :: scanAll start rest' := by
  obtain ⟨c, rest, hc⟩ := List.exists_cons_of_ne_nil (mt isEnd_scan_iff.mpr hend)
  obtain ⟨kind, ds, left, hl, -⟩ := exists_lexeme c rest
  rw [scan_of_trimStart_cons hc, hl] at hrest
  obtain rfl : left = p ++ u := hrest
  have hreplace := lexeme_replace hl hv
  rw [scan_of_trimStart_cons hc, hl, String.toList_ofList, List.cons_append,
    scanAll_cons (not_isBlank_of_trimStart_cons hc), hrest', hreplace]
  exact ⟨_, rfl⟩

/-- The tokens of the text after the replacement, wherever the texts stand. -/
theorem spliced_replaceName {r : List Char} {e : Node} (hr : Derives .sum (scanAll 0 r) e)
    (x : String) (offset other : Nat) (cs : List Char) :
    Spliced (Node.only x e) (scanAll offset cs)
      (scanAll other (replaceName x ('(' :: (r ++ [')'])) offset cs)) := by
  fun_induction scanAll offset cs generalizing other with
  | case1 offset cs first hend =>
    rw [replaceName_of_isEnd hend, scanAll_of_trimStart_nil (isEnd_scan_iff.mp hend)]
    exact .nil
  | case2 offset cs first hend ih =>
    rw [replaceName_of_not_isEnd hend, scanAll_blanks_append (trimStart_takeWhile cs)]
    split
    · rename_i hname
      rw [List.cons_append, List.append_assoc, List.singleton_append,
        scanAll_punctuation (show punctuation? '(' = some .leftParen from rfl),
        scanAll_append (by simp [Separate, isBorder]),
        scanAll_punctuation (show punctuation? ')' = some .rightParen from rfl)]
      exact .splice hname.1 (if_pos hname.2) rfl (hr.of_same (same_scanAll r 0 _)) rfl (ih _)
    · rename_i hname
      obtain ⟨p, u, v, hu, hv, hsep⟩ := exists_replaceName x (r ++ [')']) first.1.stop first.2
      obtain ⟨start, hscan⟩ := scanAll_replace_rest hend hu hv hsep
        (other + byteLength (cs.takeWhile isBlank))
      rw [hscan]
      exact .keep ⟨rfl, rfl⟩ (fun hkind => if_neg fun hx => hname ⟨hkind, hx⟩) (ih start)

end Formula.Token

namespace Formula

open Answer (outcome)

variable {σ : Type}

theorem parse_eq_ok_iff {text : String} {t : Node} :
    parse text = .ok t ↔ Derives .sum (Token.ofText text) t := parseSource_eq_ok

theorem Spliced.close_open {x : String} {e : Node} {ts us : List Token}
    (h : Spliced (Node.only x e) ts us) (hc : HasCall x ts) : ∃ before c o after,
      us = before ++ c :: o :: after ∧ c.kind = .rightParen ∧ o.kind = .leftParen := by
  obtain ⟨n, o, ⟨ls, rs, rfl⟩, hn, hx, ho⟩ := hc
  rw [List.append_assoc] at h
  obtain ⟨ls', us', rfl, -, hrest⟩ := h.split
  cases hrest with
  | keep _ hname =>
    have hnone := hname hn
    rw [Node.only, if_pos hx] at hnone
    cases hnone
  | @splice _ opening c inner _ _ _ _ _ _ _ hclose hrest =>
    obtain ⟨o', us', rfl, hkind, -⟩ := hrest.split_cons (by simp [ho])
    exact ⟨ls' ++ opening :: inner, c, o', us', by simp, hclose, hkind.trans ho⟩

theorem parse_replaceName_iff {s r x : String} {t e : Node} (hs : parse s = .ok t)
    (hr : parse r = .ok e) :
    parse (String.ofList (Token.replaceName x ('(' :: (r.toList ++ [')'])) 0 s.toList)) =
      .ok (t.substitute (Node.only x e)) ↔ ¬ t.Calls x := by
  rw [parse_eq_ok_iff] at hs hr
  have hspliced := Token.spliced_replaceName hr x 0 0 s.toList
  rw [parse_eq_ok_iff, Token.ofText, String.toList_ofList]
  constructor
  · intro h hcalls
    obtain ⟨before, c, o, after, hus, hc, ho⟩ := hspliced.close_open (hs.hasCall hcalls)
    rw [hus] at h
    exact not_derives_of_close_open hc ho h
  · intro hcalls
    refine hs.splice ?_ _ hspliced
    intro name hname
    apply if_neg
    rintro rfl
    exact hcalls hname

/-- A variable that is bound to the value of a tree can be replaced by the tree, as long as its name
is not that of a call, which the variable would hide. In a text it is replaced by the text of the
tree in parentheses: what comes out is read as the tree with the replacement exactly if the name is
not that of a call. -/
theorem evaluate_substitute :
    (∀ (c : Context σ) (t e : Node) (x : String) (value : Float) (state : σ), c.Stateless →
      ¬ t.Calls x → (outcome (e.evaluate (Cascade.context ⟨[c]⟩)) state).1 = .ok value →
      (t.substitute (Node.only x e)).evaluate (Cascade.context ⟨[c]⟩) =
        t.evaluate (Cascade.context ⟨[(Bindings.ofList [(x, value)]).context, c]⟩)) ∧
    ∀ (s r x : String) (t e : Node), parse s = .ok t → parse r = .ok e →
      (parse (String.ofList (Token.replaceName x ('(' :: (r.toList ++ [')'])) 0 s.toList)) =
        .ok (t.substitute (Node.only x e)) ↔ ¬ t.Calls x) := by
  constructor
  · intro c t e x value state hc ht he
    exact Node.evaluate_substitute_only hc ht he
  · intro s r x t e hs hr
    exact parse_replaceName_iff hs hr

def Node.twice : Node := .binary .multiply (.var "e") (.call "max" [.var "pi", .var "e"])

def Node.difference : Node := .binary .subtract (.var "pi") (.var "e")

/-- The names of `twice` may be bound, but not to hide `max`. -/
theorem evaluate_substitute_twice :
    (Standard.context : Context Unit).Stateless ∧ ¬ Node.twice.Calls "e" ∧
    (outcome (Node.difference.evaluate (Cascade.context ⟨[Standard.context]⟩)) ()).1 =
      .ok (3.141592653589793 - 2.718281828459045) ∧
    parse "e*max(pi, e)" = .ok Node.twice ∧ parse "pi - e" = .ok Node.difference ∧
    (Node.twice.substitute (Node.only "e" Node.difference)).evaluate
        (Cascade.context (σ := Unit) ⟨[Standard.context]⟩) =
      Node.twice.evaluate (Cascade.context ⟨[(Bindings.ofList
        [("e", 3.141592653589793 - 2.718281828459045)]).context, Standard.context]⟩) ∧
    parse (String.ofList (Token.replaceName "e" "(pi - e)".toList 0 "e*max(pi, e)".toList)) =
      .ok (Node.twice.substitute (Node.only "e" Node.difference)) := by
  have hvalue : (outcome (Node.difference.evaluate
      (Cascade.context ⟨[(Standard.context : Context Unit)]⟩)) ()).1 =
        .ok (3.141592653589793 - 2.718281828459045) := rfl
  have hstateless : (Standard.context : Context Unit).Stateless := Context.stateless_stateless _ _
  have hcalls : ¬ Node.twice.Calls "e" := by simp [Node.twice]
  have htwice : parse "e*max(pi, e)" = .ok Node.twice := by
    have htokens : Token.ofText "e*max(pi, e)" = [⟨.name, "e", 0⟩] ++ ⟨.star, "*", 1⟩ ::
        [⟨.name, "max", 2⟩, ⟨.leftParen, "(", 5⟩, ⟨.name, "pi", 6⟩, ⟨.comma, ",", 8⟩,
          ⟨.name, "e", 10⟩, ⟨.rightParen, ")", 11⟩] := by decide +kernel
    rw [parse_eq_ok_iff, htokens]
    have hname (s : String) (i : Nat) {l : Level} : Derives l [⟨.name, s, i⟩] (.var s) :=
      .of_leaf (.var (n := ⟨.name, s, i⟩) rfl)
    have harguments : DerivesAll [⟨.name, "pi", 6⟩, ⟨.comma, ",", 8⟩, ⟨.name, "e", 10⟩]
        [.var "pi", .var "e"] := .cons (hname "pi" 6) rfl (.single (hname "e" 10))
    exact .sum (.multiply (hname "e" 0) rfl
      (.of_leaf (.call (n := ⟨.name, "max", 2⟩) rfl rfl harguments rfl)))
  have hdifference : parse "pi - e" = .ok Node.difference := by
    have htokens : Token.ofText "pi - e" =
        [⟨.name, "pi", 0⟩] ++ ⟨.minus, "-", 3⟩ :: [⟨.name, "e", 5⟩] := by decide +kernel
    rw [parse_eq_ok_iff, htokens]
    exact .subtract (.of_leaf (.var (n := ⟨.name, "pi", 0⟩) rfl)) rfl
      (.of_leaf (.var (n := ⟨.name, "e", 5⟩) rfl))
  obtain ⟨hevaluate, hparse⟩ := evaluate_substitute (σ := Unit)
  exact ⟨hstateless, hcalls, hvalue, htwice, hdifference,
    hevaluate _ _ _ _ _ () hstateless hcalls hvalue,
    (hparse _ _ "e" _ _ htwice hdifference).mpr hcalls⟩

end Formula
