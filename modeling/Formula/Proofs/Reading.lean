import Formula.Proofs.Descent
import Formula.Proofs.Grammar
import Formula.SyntaxError
import Mathlib

/-! The descent reads exactly the phrases of the grammar: what it takes from the front of the
tokens derives the tree it returns, and a phrase is read whole, with its tree, in front of
everything that cannot continue it. So the grammar gives a stretch of tokens at most one tree. -/

namespace Formula

namespace Reader

theorem bind_eq_ok {α β : Type} {x : Except Failure α} {f : α → Except Failure β} {b : β} :
    x.bind f = .ok b ↔ ∃ a, x = .ok a ∧ f a = .ok b := by
  cases x <;> simp [Except.bind]

theorem map_eq_ok {α β : Type} {x : Except Failure α} {f : α → β} {b : β} :
    x.map f = .ok b ↔ ∃ a, x = .ok a ∧ f a = b := by
  cases x <;> simp [Except.map]

theorem readClose_eq_ok {o : Token} {node t : Node} {ts rest : List Token}
    (h : readClose o node ts = .ok (t, rest)) :
    ∃ c, c.kind = .rightParen ∧ ts = c :: rest ∧ node = t := by
  cases ts with
  | nil => cases h
  | cons c ts =>
    by_cases hc : c.kind = .rightParen
    · rw [readClose_close hc] at h
      cases h
      exact ⟨c, hc, rfl, rfl⟩
    · simp [readClose_error hc] at h

/-! Soundness. The four proofs follow the four functions of the descent; that a callee has taken
something is part of what it is proved to do, since a phrase is never empty. -/

mutual

theorem derives_of_read (l : Level) (ts : List Token) {t : Node} {rest : List Token}
    (h : read l ts = .ok (t, rest)) : ∃ us, ts = us ++ rest ∧ Derives l us t := by
  match l, ts, h with
  | .sum, ts, h =>
    rw [read_chain (.inl rfl)] at h
    obtain ⟨p, hp, hq⟩ := bind_eq_ok.mp h
    obtain ⟨us, hts, hu⟩ := derives_of_read .product ts hp
    have hlt := hu.length_lt hts
    obtain ⟨vs, hv, hd⟩ := derives_of_readChain .sum p.1 p.2 hq (.sum hu)
    exact ⟨us ++ vs, by rw [hts, hv, List.append_assoc], hd⟩
  | .product, ts, h =>
    rw [read_chain (.inr rfl)] at h
    obtain ⟨p, hp, hq⟩ := bind_eq_ok.mp h
    obtain ⟨us, hts, hu⟩ := derives_of_read .unary ts hp
    have hlt := hu.length_lt hts
    obtain ⟨vs, hv, hd⟩ := derives_of_readChain .product p.1 p.2 hq (.product hu)
    exact ⟨us ++ vs, by rw [hts, hv, List.append_assoc], hd⟩
  | .unary, [], h => simp [read_unary_nil] at h
  | .unary, o :: ts, h =>
    by_cases hp : o.kind = .plus
    · rw [read_unary_plus hp] at h
      obtain ⟨us, rfl, hu⟩ := derives_of_read .unary ts h
      exact ⟨o :: us, rfl, .positive hp hu⟩
    by_cases hm : o.kind = .minus
    · rw [read_unary_minus hm] at h
      obtain ⟨p, hp, hpt⟩ := map_eq_ok.mp h
      obtain ⟨us, rfl, hu⟩ := derives_of_read .unary ts hp
      cases hpt
      exact ⟨o :: us, rfl, .negative hm hu⟩
    rw [read_unary_leaf hp hm] at h
    obtain ⟨us, hus, hu⟩ := derives_of_read .leaf (o :: ts) h
    exact ⟨us, hus, .unary hu⟩
  | .leaf, [], h => simp [read_leaf_nil] at h
  | .leaf, o :: ts, h =>
    cases hk : o.kind with
    | number value =>
      rw [read_leaf_number hk] at h
      cases h
      exact ⟨[o], rfl, .number hk⟩
    | leftParen =>
      rw [read_leaf_group hk] at h
      obtain ⟨p, hp, hq⟩ := bind_eq_ok.mp h
      obtain ⟨us, rfl, hu⟩ := derives_of_read .sum ts hp
      obtain ⟨c, hc, hr, rfl⟩ := readClose_eq_ok hq
      exact ⟨o :: (us ++ [c]), by simp [hr], .group hk hu hc⟩
    | name =>
      rw [read_leaf_name hk] at h
      obtain ⟨us, rfl, hu⟩ := derives_of_readApplication o ts h hk
      exact ⟨o :: us, rfl, hu⟩
    | _ =>
      rw [read_leaf_error (by rw [hk]; rfl)] at h
      cases h
termination_by 5 * ts.length + l.height
decreasing_by all_goals simp only [Level.height, List.length_cons] at *; omega

theorem derives_of_readChain (l : Level) (lhs : Node) (ts : List Token) {t : Node}
    {rest : List Token} (h : readChain l lhs ts = .ok (t, rest)) {ls : List Token}
    (hl : Derives l ls lhs) : ∃ us, ts = us ++ rest ∧ Derives l (ls ++ us) t := by
  match ts, h with
  | [], h =>
    rw [readChain_nil] at h
    cases h
    exact ⟨[], rfl, by simpa using hl⟩
  | o :: ts, h =>
    cases ho : l.operator? o.kind with
    | none =>
      rw [readChain_stop ho] at h
      cases h
      exact ⟨[], rfl, by simpa using hl⟩
    | some op =>
      have := l.tighter.height_le
      rw [readChain_operator ho] at h
      obtain ⟨p, hp, hq⟩ := bind_eq_ok.mp h
      obtain ⟨rs, hts, hr⟩ := derives_of_read l.tighter ts hp
      have hlt := hr.length_lt hts
      obtain ⟨us, hu, hd⟩ := derives_of_readChain l (.binary op lhs p.1) p.2 hq (hl.join ho hr)
      exact ⟨o :: rs ++ us, by simp [hts, hu], by simpa using hd⟩
termination_by 5 * ts.length
decreasing_by all_goals simp only [Level.height, List.length_cons] at *; omega

theorem derives_of_readApplication (n : Token) (ts : List Token) {t : Node} {rest : List Token}
    (h : readApplication n ts = .ok (t, rest)) (hn : n.kind = .name) :
    ∃ us, ts = us ++ rest ∧ Derives .leaf (n :: us) t := by
  match ts, h with
  | [], h =>
    rw [readApplication_nil] at h
    cases h
    exact ⟨[], rfl, .var hn⟩
  | o :: ts, h =>
    by_cases ho : o.kind = .leftParen
    · cases hc : startsWithClose ts with
      | true => simp [readApplication_empty ho hc] at h
      | false =>
        rw [readApplication_call ho hc] at h
        obtain ⟨p, hp, hq⟩ := bind_eq_ok.mp h
        obtain ⟨us, rfl, hu⟩ := derives_of_readOperands ts hp
        obtain ⟨c, hc, hr, rfl⟩ := readClose_eq_ok hq
        exact ⟨o :: (us ++ [c]), by simp [hr], .call hn ho hu hc⟩
    · rw [readApplication_var ho] at h
      cases h
      exact ⟨[], rfl, .var hn⟩
termination_by 5 * ts.length
decreasing_by all_goals simp only [Level.height, List.length_cons] at *; omega

theorem derives_of_readOperands (ts : List Token) {nodes : List Node} {rest : List Token}
    (h : readOperands ts = .ok (nodes, rest)) : ∃ us, ts = us ++ rest ∧ DerivesAll us nodes := by
  rw [readOperands_eq] at h
  obtain ⟨⟨first, left⟩, hp, hq⟩ := bind_eq_ok.mp h
  obtain ⟨us, hts, hu⟩ := derives_of_read .sum ts hp
  have hlt := hu.length_lt hts
  match left, hq with
  | [], hq =>
    cases hq
    exact ⟨us, hts, .single hu⟩
  | c :: left, hq =>
    by_cases hc : c.kind = .comma
    · simp only [hc, if_true] at hq
      obtain ⟨q, hq, hqt⟩ := map_eq_ok.mp hq
      obtain ⟨vs, hl, hv⟩ := derives_of_readOperands left hq
      cases hqt
      exact ⟨us ++ c :: vs, by simp [hts, hl], .cons hu hc hv⟩
    · simp only [hc, if_false] at hq
      cases hq
      exact ⟨us, hts, .single hu⟩
termination_by 5 * ts.length + 4
decreasing_by all_goals simp only [Level.height, List.length_cons] at *; omega

end

theorem length_lt_of_read {l : Level} {ts rest : List Token} {t : Node}
    (h : read l ts = .ok (t, rest)) : rest.length < ts.length := by
  obtain ⟨us, hts, hu⟩ := derives_of_read l ts h
  exact hu.length_lt hts

/-! Where the descent stops. A chain ends only in front of a token that is no operator of its
level, and its last operand in front of none of the tighter level. -/

/-- No operator of the level is left unread. -/
def Stops (l : Level) (rest : List Token) : Prop := ∀ o ∈ rest.head?, l.operator? o.kind = none

theorem stops_of_readChain {l : Level}
    (hl : ∀ {ts t rest}, read l.tighter ts = .ok (t, rest) → Stops l.tighter rest)
    (ts : List Token) {lhs t : Node} {rest : List Token} (h : readChain l lhs ts = .ok (t, rest))
    (hts : Stops l.tighter ts) : Stops l rest ∧ Stops l.tighter rest := by
  match ts, h with
  | [], h =>
    rw [readChain_nil] at h
    cases h
    exact ⟨by simp [Stops], hts⟩
  | o :: ts, h =>
    cases ho : l.operator? o.kind with
    | none =>
      rw [readChain_stop ho] at h
      cases h
      exact ⟨by simpa [Stops] using ho, hts⟩
    | some op =>
      rw [readChain_operator ho] at h
      obtain ⟨p, hp, hq⟩ := bind_eq_ok.mp h
      have hlt := length_lt_of_read hp
      exact stops_of_readChain hl p.2 hq (hl hp)
termination_by ts.length
decreasing_by rw [List.length_cons]; omega

theorem stops_of_read_chain {l : Level} (hc : l = .sum ∨ l = .product)
    (hl : ∀ {ts t rest}, read l.tighter ts = .ok (t, rest) → Stops l.tighter rest)
    {ts rest : List Token} {t : Node} (h : read l ts = .ok (t, rest)) :
    Stops l rest ∧ Stops l.tighter rest := by
  rw [read_chain hc] at h
  obtain ⟨p, hp, hq⟩ := bind_eq_ok.mp h
  exact stops_of_readChain hl p.2 hq (hl hp)

theorem stops_of_read {l : Level} {ts rest : List Token} {t : Node}
    (h : read l ts = .ok (t, rest)) : Stops l rest ∧ Stops l.tighter rest := by
  have hproduct {ts rest t} (h : read .product ts = .ok (t, rest)) :=
    stops_of_read_chain (.inr rfl) (fun _ _ _ => rfl) h
  cases l with
  | sum => exact stops_of_read_chain (.inl rfl) (fun h => (hproduct h).1) h
  | product => exact hproduct h
  | unary => exact ⟨fun _ _ => rfl, fun _ _ => rfl⟩
  | leaf => exact ⟨fun _ _ => rfl, fun _ _ => rfl⟩

theorem stops_of_readOperands (ts : List Token) {nodes : List Node} {rest : List Token}
    (h : readOperands ts = .ok (nodes, rest)) :
    Stops .sum rest ∧ Stops .product rest ∧ ∀ o ∈ rest.head?, o.kind ≠ .comma := by
  rw [readOperands_eq] at h
  obtain ⟨⟨first, left⟩, hp, hq⟩ := bind_eq_ok.mp h
  have hlt := length_lt_of_read hp
  have hs := stops_of_read hp
  match left, hq with
  | [], hq =>
    cases hq
    exact ⟨hs.1, hs.2, by simp⟩
  | c :: left, hq =>
    by_cases hc : c.kind = .comma
    · simp only [hc, if_true] at hq
      obtain ⟨q, hr, hqt⟩ := map_eq_ok.mp hq
      cases hqt
      exact stops_of_readOperands left hr
    · simp only [hc, if_false] at hq
      cases hq
      exact ⟨hs.1, hs.2, by simpa using hc⟩
termination_by ts.length
decreasing_by simp only [List.length_cons] at *; omega

/-! Completeness. A phrase is read in front of tokens that continue neither one of its operands
nor a name at its end; the chain of its own level may go on. -/

/-- The tokens `rest` continue no operand of a phrase of level `l` that is made of `ts`. -/
structure Follows (l : Level) (ts rest : List Token) : Prop where
  operator : ∀ o ∈ rest.head?, l.tighter.operator? o.kind = none
  arguments : ∀ n ∈ ts.getLast?, n.kind = .name → ∀ o ∈ rest.head?, o.kind ≠ .leftParen

theorem Follows.nil (l : Level) (ts : List Token) : Follows l ts [] := ⟨by simp, by simp⟩

theorem Follows.operator_cons {l : Level} {o : Token} {op : BinaryOp}
    (h : l.operator? o.kind = some op) (ts rest : List Token) : Follows l ts (o :: rest) := by
  rcases Level.operator?_eq_some_iff.mp h with
    ⟨rfl, hk, -⟩ | ⟨rfl, hk, -⟩ | ⟨rfl, hk, -⟩ | ⟨rfl, hk, -⟩ <;>
    constructor <;> simp [hk, Level.operator?, Level.tighter]

/-- What follows a phrase follows the operand at its end. -/
theorem Follows.tighten {l : Level} {ts us rest : List Token} (h : Follows l ts rest)
    (hs : us <:+ ts) : Follows l.tighter us rest := by
  refine ⟨fun o _ => by cases l <;> rfl, fun n hn => h.arguments n ?_⟩
  obtain ⟨pre, rfl⟩ := hs
  rw [List.getLast?_append, Option.mem_def.mp hn]
  rfl

theorem Follows.tail {o : Token} {ts rest : List Token} (h : Follows .unary (o :: ts) rest) :
    Follows .unary ts rest :=
  ⟨h.operator, (h.tighten (List.suffix_cons o ts)).arguments⟩

theorem readChain_of_stops {l : Level} {rest : List Token} (h : Stops l rest) (t : Node) :
    readChain l t rest = .ok (t, rest) := by
  rcases rest with _ | ⟨o, rest⟩
  · exact readChain_nil _ _
  · exact readChain_stop (h o rfl) _ _

theorem readChain_of_follows {l : Level} {ts rest : List Token} (h : Follows l ts rest)
    (t : Node) : readChain l.tighter t rest = .ok (t, rest) := readChain_of_stops h.operator t

theorem readChain_unary (t : Node) (rest : List Token) :
    readChain .unary t rest = .ok (t, rest) := readChain_of_stops (fun _ _ => rfl) t

theorem readChain_leaf (t : Node) (rest : List Token) :
    readChain .leaf t rest = .ok (t, rest) := readChain_of_stops (fun _ _ => rfl) t

theorem startsWithClose_append {ts us : List Token} (hts : ts ≠ []) :
    startsWithClose (ts ++ us) = startsWithClose ts := by
  cases ts with
  | nil => exact absurd rfl hts
  | cons t ts => rfl

end Reader

open Reader

theorem Derives.startsLeaf {ts : List Token} {t : Node} (h : Derives .leaf ts t) :
    ∃ o us, ts = o :: us ∧ startsLeaf o.kind = true := by
  cases h with
  | number hn => exact ⟨_, _, rfl, by rw [hn]; rfl⟩
  | group ho _ _ => exact ⟨_, _, rfl, by rw [ho]; rfl⟩
  | var hn => exact ⟨_, _, rfl, by rw [hn]; rfl⟩
  | call hn _ _ _ => exact ⟨_, _, rfl, by rw [hn]; rfl⟩

theorem Derives.read_unary {ts : List Token} {t : Node} (h : Derives .leaf ts t)
    (rest : List Token) : read .unary (ts ++ rest) = read .leaf (ts ++ rest) := by
  obtain ⟨o, us, rfl, ho⟩ := h.startsLeaf
  refine read_unary_leaf ?_ ?_ _
  · intro hk
    simp [hk, Reader.startsLeaf] at ho
  · intro hk
    simp [hk, Reader.startsLeaf] at ho

mutual

theorem Derives.not_startsWithClose {l : Level} {ts : List Token} {t : Node} :
    Derives l ts t → startsWithClose ts = false
  | .sum h => h.not_startsWithClose
  | .product h => h.not_startsWithClose
  | .unary h => h.not_startsWithClose
  | .add h _ _ | .subtract h _ _ | .multiply h _ _ | .divide h _ _ => by
    rw [startsWithClose_append h.ne_nil, h.not_startsWithClose]
  | .positive ho _ | .negative ho _ | .number ho | .group ho _ _ | .var ho | .call ho _ _ _ => by
    simp [startsWithClose, ho]

theorem DerivesAll.not_startsWithClose {ts : List Token} {nodes : List Node} :
    DerivesAll ts nodes → startsWithClose ts = false
  | .single h => h.not_startsWithClose
  | .cons h _ _ => by rw [startsWithClose_append h.ne_nil, h.not_startsWithClose]

end

theorem Reader.read_loosen {l : Level} {ts : List Token} {t : Node}
    (hl : l = .sum ∨ l = .product)
    (h : ∀ rest, Follows l.tighter ts rest →
      read l.tighter (ts ++ rest) = readChain l.tighter t rest)
    {rest : List Token} (hf : Follows l ts rest) : read l (ts ++ rest) = readChain l t rest := by
  rw [read_chain hl, h rest (hf.tighten (List.suffix_refl _)), readChain_of_follows hf]
  rfl

theorem Reader.read_join {l : Level} {ls rs : List Token} {o : Token} {op : BinaryOp}
    {lhs rhs : Node} (ho : l.operator? o.kind = some op)
    (hl : ∀ rest, Follows l ls rest → read l (ls ++ rest) = readChain l lhs rest)
    (hr : ∀ rest, Follows l.tighter rs rest →
      read l.tighter (rs ++ rest) = readChain l.tighter rhs rest)
    {rest : List Token} (hf : Follows l (ls ++ o :: rs) rest) :
    read l ((ls ++ o :: rs) ++ rest) = readChain l (.binary op lhs rhs) rest := by
  have hsuffix : rs <:+ ls ++ o :: rs := ⟨ls ++ [o], by simp⟩
  rw [List.append_assoc, List.cons_append, hl _ (.operator_cons ho _ _), readChain_operator ho,
    hr rest (hf.tighten hsuffix), readChain_of_follows hf]
  rfl

theorem Reader.Follows.closing {c : Token} (hc : c.kind = .rightParen ∨ c.kind = .comma)
    (ts rest : List Token) : Follows .sum ts (c :: rest) := by
  rcases hc with hc | hc <;> constructor <;> simp [hc, Level.operator?, Level.tighter]

theorem Reader.readChain_closing {c : Token} (hc : c.kind = .rightParen ∨ c.kind = .comma)
    (t : Node) (rest : List Token) : readChain .sum t (c :: rest) = .ok (t, c :: rest) := by
  rcases hc with hc | hc <;> exact readChain_stop (by rw [hc]; rfl) _ _

mutual

/-- A phrase is read whole, and the chain of its level goes on with what follows. -/
theorem Derives.read_append {l : Level} {ts : List Token} {t : Node} : Derives l ts t →
    ∀ rest, Follows l ts rest → read l (ts ++ rest) = readChain l t rest
  | .sum h, _, hf => read_loosen (.inl rfl) h.read_append hf
  | .product h, _, hf => read_loosen (.inr rfl) h.read_append hf
  | .add hl hk hr, _, hf => read_join (by rw [hk]; rfl) hl.read_append hr.read_append hf
  | .subtract hl hk hr, _, hf => read_join (by rw [hk]; rfl) hl.read_append hr.read_append hf
  | .multiply hl hk hr, _, hf => read_join (by rw [hk]; rfl) hl.read_append hr.read_append hf
  | .divide hl hk hr, _, hf => read_join (by rw [hk]; rfl) hl.read_append hr.read_append hf
  | .unary h, rest, hf => by
    rw [h.read_unary, h.read_append rest (hf.tighten (List.suffix_refl _)), readChain_leaf,
      readChain_unary]
  | .positive hk h, rest, hf => by
    rw [List.cons_append, read_unary_plus hk, h.read_append rest hf.tail]
  | .negative hk h, rest, hf => by
    rw [List.cons_append, read_unary_minus hk, h.read_append rest hf.tail, readChain_unary,
      readChain_unary]
    rfl
  | .number hk, rest, hf => by
    rw [List.singleton_append, read_leaf_number hk, readChain_leaf]
  | .group (c := c) ho h hc, rest, hf => by
    rw [List.cons_append, List.append_assoc, List.singleton_append, read_leaf_group ho,
      h.read_append (c :: rest) (.closing (.inl hc) _ _), readChain_closing (.inl hc),
      readChain_leaf]
    exact readClose_close hc _ _ _
  | .var hk, rest, hf => by
    rw [List.singleton_append, read_leaf_name hk, readChain_leaf]
    cases rest with
    | nil => exact readApplication_nil _
    | cons o rest => exact readApplication_var (hf.arguments _ rfl hk o rfl) _ _
  | .call (c := c) hn ho h hc, rest, hf => by
    have hs : ∀ us, startsWithClose (_ ++ us) = false :=
      fun us => (startsWithClose_append h.ne_nil).trans h.not_startsWithClose
    rw [List.cons_append, List.cons_append, List.append_assoc, List.singleton_append,
      read_leaf_name hn, readApplication_call ho (hs _), h.read_append c rest hc, readChain_leaf]
    exact readClose_close hc _ _ _

theorem DerivesAll.read_append {ts : List Token} {nodes : List Node} : DerivesAll ts nodes →
    ∀ c rest, c.kind = .rightParen → readOperands (ts ++ c :: rest) = .ok (nodes, c :: rest)
  | .single h, c, rest, hc => by
    rw [readOperands_eq, h.read_append _ (.closing (.inl hc) _ _), readChain_closing (.inl hc)]
    simp [Except.bind, hc]
  | .cons (c := o) h ho hs, c, rest, hc => by
    rw [List.append_assoc, List.cons_append, readOperands_eq,
      h.read_append _ (.closing (.inr ho) _ _), readChain_closing (.inr ho)]
    simp [Except.bind, Except.map, ho, hs.read_append c rest hc]

end

/-- The reader accepts the sums of the grammar and nothing else. -/
theorem Reader.parse_eq_ok_iff {ts : List Token} {t : Node} :
    parse ts = .ok t ↔ Derives .sum ts t := by
  rw [parse_eq]
  constructor
  · intro h
    obtain ⟨⟨node, left⟩, hp, hl⟩ := bind_eq_ok.mp h
    obtain ⟨us, rfl, hu⟩ := derives_of_read .sum ts hp
    cases left with
    | nil =>
      cases hl
      simpa using hu
    | cons o left => cases hl
  · intro h
    have hr := h.read_append [] (.nil _ _)
    rw [List.append_nil, readChain_nil] at hr
    rw [hr]
    rfl

theorem Derives.unique {ts : List Token} {t u : Node} (ht : Derives .sum ts t)
    (hu : Derives .sum ts u) : t = u :=
  Except.ok.inj ((parse_eq_ok_iff.mpr ht).symm.trans (parse_eq_ok_iff.mpr hu))

theorem parseSource_eq_ok {source : Text.Source} {t : Node} :
    parseSource source = .ok t ↔ Derives .sum (Token.ofText source.text) t := by
  rw [← parse_eq_ok_iff, parseSource]
  cases Reader.parse (Token.ofText source.text) <;> simp [Except.mapError]

/-- A text is read as a tree exactly when its tokens are a sum of the grammar that denotes the
tree. So the grammar gives no stretch of tokens two trees, and the texts that are refused are
those whose tokens denote none. -/
theorem parseSource_iff_derives :
    (∀ source t, parseSource source = .ok t ↔ Derives .sum (Token.ofText source.text) t) ∧
    (∀ ts t u, Derives .sum ts t → Derives .sum ts u → t = u) ∧
    (∀ source, (∃ error, parseSource source = .error error) ↔
      ∀ t, ¬ Derives .sum (Token.ofText source.text) t) := by
  refine ⟨fun _ _ => parseSource_eq_ok, fun _ _ _ => Derives.unique, ?_⟩
  intro source
  simp only [← parseSource_eq_ok]
  cases parseSource source <;> simp

/-- Signs bind closer than the product and this one closer than the sum, also in the arguments. -/
theorem parseSource_iff_derives_nestedCall :
    let tokens : List Token := [⟨.minus, "-", 0⟩, ⟨.name, "a", 1⟩, ⟨.plus, "+", 3⟩,
      ⟨.name, "b", 5⟩, ⟨.star, "*", 7⟩, ⟨.name, "f", 9⟩, ⟨.leftParen, "(", 10⟩, ⟨.name, "c", 11⟩,
      ⟨.comma, ",", 12⟩, ⟨.minus, "-", 14⟩, ⟨.name, "g", 15⟩, ⟨.leftParen, "(", 16⟩,
      ⟨.name, "d", 17⟩, ⟨.rightParen, ")", 18⟩, ⟨.rightParen, ")", 19⟩]
    let tree : Node := .binary .add (.unary .negate (.var "a")) (.binary .multiply (.var "b")
      (.call "f" [.var "c", .unary .negate (.call "g" [.var "d"])]))
    Derives .sum tokens tree ∧ parseSource ⟨none, "-a + b * f(c, -g(d))"⟩ = .ok tree ∧
      ∀ u, Derives .sum tokens u → u = tree := by
  intro tokens tree
  have hname (s : String) (i : Nat) : Derives .leaf [⟨.name, s, i⟩] (.var s) :=
    .var (n := ⟨.name, s, i⟩) rfl
  have hinner : Derives .leaf [⟨.name, "g", 15⟩, ⟨.leftParen, "(", 16⟩, ⟨.name, "d", 17⟩,
      ⟨.rightParen, ")", 18⟩] (.call "g" [.var "d"]) :=
    .call (n := ⟨.name, "g", 15⟩) rfl rfl (.single (.of_leaf (hname "d" 17))) rfl
  have hsecond : Derives .sum [⟨.minus, "-", 14⟩, ⟨.name, "g", 15⟩, ⟨.leftParen, "(", 16⟩,
      ⟨.name, "d", 17⟩, ⟨.rightParen, ")", 18⟩] (.unary .negate (.call "g" [.var "d"])) :=
    .sum (.product (.negative rfl (.unary hinner)))
  have houter : Derives .leaf (tokens.drop 5)
      (.call "f" [.var "c", .unary .negate (.call "g" [.var "d"])]) :=
    .call (n := ⟨.name, "f", 9⟩) rfl rfl (.cons (.of_leaf (hname "c" 11)) rfl (.single hsecond)) rfl
  have hproduct : Derives .product (tokens.drop 3) (.binary .multiply (.var "b")
      (.call "f" [.var "c", .unary .negate (.call "g" [.var "d"])])) :=
    .multiply (.product (.unary (hname "b" 5))) rfl (.unary houter)
  have h : Derives .sum tokens tree :=
    .add (.sum (.product (.negative rfl (.unary (hname "a" 1))))) rfl hproduct
  have hts : Token.ofText "-a + b * f(c, -g(d))" = tokens := by decide +kernel
  refine ⟨h, (parseSource_iff_derives.1 ⟨none, "-a + b * f(c, -g(d))"⟩ _).mpr ?_, ?_⟩
  · rw [hts]
    exact h
  · intro u hu
    exact parseSource_iff_derives.2.1 _ _ _ hu h

end Formula
