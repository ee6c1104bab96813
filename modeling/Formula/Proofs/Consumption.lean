import Formula.Proofs.Calls
import Formula.Proofs.ErrorPlace
import Formula.Proofs.Greedy
import Formula.Proofs.Walk

/-! How far the descent moves. Function by function it leaves the cursor where the reader leaves the
tokens, so its moves are told by what is left: all tokens are passed if a text is read, and if not,
those before the one that its error points at. -/

namespace Formula

open Text (Source)
open Token (endOf ofText)
open Reader

namespace Walk

/-- The cursor has moved past the tokens before `rest`, one at a time. -/
structure At (source : Source) (rest : List Token) (w : Walk) : Prop where
  cursor : w.cursor = Cursor.advance^[w.passed.length] (.start source)
  passed : ofText source.text = w.passed ++ rest

variable {source : Source} {w : Walk} {rest : List Token} {α β : Type}

theorem at_start (source : Source) : At source (ofText source.text) (start source) := ⟨rfl, rfl⟩

theorem At.source_eq (h : At source rest w) : w.cursor.source = source := by
  rw [h.cursor, Cursor.source_iterate_advance]
  rfl

theorem At.toList (h : At source rest w) : w.cursor.toList = rest := by
  rw [h.cursor, (Cursor.atPlace_start source).toList_iterate, Cursor.toList_start, h.passed,
    List.drop_left]

theorem At.current (h : At source rest w) : w.current = rest.headD (endOf source) := by
  have hcurrent := (Cursor.atPlace_start source).current_iterate w.passed.length
  rw [← h.cursor, Cursor.toList_start, h.passed] at hcurrent
  refine hcurrent.trans ?_
  cases rest <;> simp

theorem At.kind (h : At source rest w) : w.kind = nextKind rest := by
  rw [Walk.kind, h.current]
  cases rest <;> rfl

theorem At.place_eq (h : At source rest w) : SyntaxError.place source rest = w.current.span := by
  rw [place_eq_span, h.current]

theorem At.eq_nil (h : At source rest w) (hk : w.kind = .endOfInput) : rest = [] := by
  have hend : w.cursor.current.isEnd = true := decide_eq_true hk
  rw [← h.toList, Cursor.toList, if_pos hend]

theorem At.exists_advance {k : Token.Kind} (h : At source rest w) (hk : w.kind = k)
    (hne : k ≠ .endOfInput) :
    ∃ rest', rest = w.current :: rest' ∧ At source rest' w.advance ∧ w.advance.left < w.left := by
  have htokens := h.toList.symm.trans (toList_advance (hk ▸ hne))
  refine ⟨_, htokens, ⟨?_, ?_⟩, left_advance_lt hk hne⟩
  · rw [Walk.advance, List.length_append, List.length_singleton, Function.iterate_succ_apply',
      ← h.cursor]
  · rw [h.passed, htokens, Walk.advance, List.append_assoc]
    rfl

theorem At.startsWithClose (h : At source rest w) :
    startsWithClose rest = true ↔ w.kind = .rightParen := by
  rw [h.kind]
  cases rest <;> simp [Reader.startsWithClose, nextKind]

/-- The cursor is left where the reader leaves the tokens, with what the reader has read or with the
error that its failure stands for. -/
inductive Ends (source : Source) :
    Except Failure (α × List Token) → Except SyntaxError α → Walk → Prop
  | ok {a rest w} : At source rest w → Ends source (.ok (a, rest)) (.ok a) w
  | error {failure w} : At source failure.rest w →
      Ends source (.error failure) (.error (.ofFailure source failure)) w

theorem Ends.andThen {n : Nat} {r : Except Failure (α × List Token)} {out : Outcome α n}
    {f : α × List Token → Except Failure (β × List Token)}
    {g : α → (w : Walk) → w.left ≤ n → Outcome β n} (h : Ends source r out.1 out.2.1)
    (hfg : ∀ a rest w hw, At source rest w →
      Ends source (f (a, rest)) (g a w hw).1 (g a w hw).2.1) :
    Ends source (r.bind f) (out.andThen g).1 (out.andThen g).2.1 := by
  obtain ⟨result, w, hw⟩ := out
  cases h with
  | ok h => exact hfg _ _ w hw h
  | error h => exact .error h

theorem At.fail {failure : Failure} {cause : SyntaxError.Cause} (h : At source failure.rest w)
    (hf : SyntaxError.ofFailure source failure =
      ⟨source, SyntaxError.place source failure.rest, cause⟩) :
    Ends source (.error failure) (Walk.fail (α := α) w cause).1
      (Walk.fail (α := α) w cause).2.1 := by
  have herror : SyntaxError.ofFailure source failure =
      ⟨w.cursor.source, w.current.span, cause⟩ := by
    rw [hf, h.place_eq, h.source_eq]
  rw [Walk.fail, ← herror]
  exact .error h

theorem ends_close {opening : Token} {node : Node} (h : At source rest w) :
    Ends source (readClose opening node rest) (close opening node w).1
      (close opening node w).2.1 := by
  by_cases hk : w.kind = .rightParen
  · obtain ⟨rest', rfl, h', -⟩ := h.exists_advance hk (by simp)
    rw [close, dif_pos hk, readClose_close hk]
    exact .ok h'
  · rw [close, dif_neg hk]
    cases rest with
    | nil => exact At.fail h rfl
    | cons t rest =>
      have ht : w.kind = t.kind := h.kind
      rw [readClose_error (ht ▸ hk)]
      exact At.fail h rfl

mutual

/-- A level leaves the cursor where the reader of that level leaves the tokens. -/
theorem ends_level (l : Level) (ts : List Token) (w : Walk) (h : At source ts w) :
    Ends source (read l ts) (level l w).1 (level l w).2.1 := by
  match l with
  | .sum =>
    rw [read_chain (.inl rfl), level]
    exact (ends_level .product ts w h).andThen fun lhs rest w' _ h' =>
      ends_chain .sum lhs rest w' h'
  | .product =>
    rw [read_chain (.inr rfl), level]
    exact (ends_level .unary ts w h).andThen fun lhs rest w' _ h' =>
      ends_chain .product lhs rest w' h'
  | .unary =>
    rw [level]
    split
    · rename_i hk
      obtain ⟨rest, hts, h', hlt⟩ := h.exists_advance hk (by simp)
      rw [hts, read_unary_plus hk]
      exact ends_level .unary rest w.advance h'
    · rename_i hk
      obtain ⟨rest, hts, h', hlt⟩ := h.exists_advance hk (by simp)
      rw [hts, read_unary_minus hk]
      exact (ends_level .unary rest w.advance h').andThen fun operand rest' w' _ h' => .ok h'
    · rename_i hplus hminus
      -- Without a sign the leaf is read from the same token on, so only the level has changed.
      have hleaf : read .unary ts = read .leaf ts := by
        cases ts with
        | nil => rw [read_unary_nil, read_leaf_nil]
        | cons t ts =>
          have ht : w.kind = t.kind := h.kind
          exact read_unary_leaf (ht ▸ hplus) (ht ▸ hminus) ts
      rw [hleaf]
      exact ends_level .leaf ts w h
  | .leaf =>
    rw [level]
    split
    · rename_i value hk
      obtain ⟨rest, rfl, h', -⟩ := h.exists_advance hk (by simp)
      rw [read_leaf_number hk]
      exact .ok h'
    · rename_i hk
      obtain ⟨rest, hts, h', hlt⟩ := h.exists_advance hk (by simp)
      rw [hts, read_leaf_group hk]
      exact (ends_level .sum rest w.advance h').andThen fun node rest' w' _ h' => ends_close h'
    · rename_i hk
      obtain ⟨rest, hts, h', hlt⟩ := h.exists_advance hk (by simp)
      rw [hts, read_leaf_name hk]
      exact ends_application w.current rest w.advance h'
    · rename_i hk
      obtain rfl := h.eq_nil hk
      rw [read_leaf_nil]
      exact At.fail h rfl
    · rename_i hnumber hparen hname hend
      obtain ⟨rest, rfl, -, -⟩ := h.exists_advance rfl hend
      have hstart : startsLeaf w.kind = false := by
        cases hw : w.kind <;> simp_all [startsLeaf]
      rw [read_leaf_error hstart]
      exact At.fail h rfl
termination_by 5 * w.left + l.height
decreasing_by all_goals simp only [Level.height] at *; omega

theorem ends_chain (l : Level) (lhs : Node) (ts : List Token) (w : Walk) (h : At source ts w) :
    Ends source (readChain l lhs ts) (chain l lhs w).1 (chain l lhs w).2.1 := by
  rw [chain]
  split
  · rename_i ho
    have hstops : Stops l ts := by rw [stops_iff_nextKind, ← h.kind, ho]
    rw [readChain_of_stops hstops]
    exact .ok h
  · rename_i op ho
    have := l.tighter.height_le
    obtain ⟨rest, hts, h', hlt⟩ := h.exists_advance rfl (Level.ne_endOfInput ho)
    rw [hts, readChain_operator ho]
    exact (ends_level l.tighter rest w.advance h').andThen fun rhs rest' w' _ h' =>
      ends_chain l (.binary op lhs rhs) rest' w' h'
termination_by 5 * w.left
decreasing_by all_goals simp only [Level.height] at *; omega

theorem ends_application (name : Token) (ts : List Token) (w : Walk) (h : At source ts w) :
    Ends source (readApplication name ts) (application name w).1 (application name w).2.1 := by
  rw [application]
  by_cases hk : w.kind = .leftParen
  · obtain ⟨rest, hts, h', hlt⟩ := h.exists_advance hk (by simp)
    rw [hts, dif_pos hk]
    by_cases hc : w.advance.kind = .rightParen
    · rw [if_pos hc, readApplication_empty hk (h'.startsWithClose.mpr hc)]
      have herror : SyntaxError.ofFailure source ⟨.argument name w.current, rest⟩ =
          ⟨w.cursor.source, ⟨w.current.offset, w.advance.current.stop - w.current.offset⟩,
            .emptyArguments name.literal⟩ := by
        rw [h.source_eq, SyntaxError.ofFailure, h'.place_eq]
        rfl
      rw [← herror]
      exact .error h'
    · rw [if_neg hc, readApplication_call hk (Bool.eq_false_iff.mpr (mt h'.startsWithClose.mp hc))]
      exact (ends_operands rest w.advance h').andThen fun nodes rest' w' _ h' => ends_close h'
  · rw [dif_neg hk]
    cases ts with
    | nil =>
      rw [readApplication_nil]
      exact .ok h
    | cons t ts =>
      have ht : w.kind = t.kind := h.kind
      rw [readApplication_var (ht ▸ hk)]
      exact .ok h
termination_by 5 * w.left
decreasing_by all_goals simp only [Level.height] at *; omega

theorem ends_operands (ts : List Token) (w : Walk) (h : At source ts w) :
    Ends source (readOperands ts) (operands w).1 (operands w).2.1 := by
  rw [operands, readOperands_eq]
  refine (ends_level .sum ts w h).andThen fun first rest w' hle h' => ?_
  by_cases hk : w'.kind = .comma
  · obtain ⟨rest', hts, h'', hlt⟩ := h'.exists_advance hk (by simp)
    simp only [hts, dif_pos hk, if_pos (show w'.current.kind = .comma from hk)]
    exact (ends_operands rest' w'.advance h'').andThen fun nodes rest'' w'' _ h'' => .ok h''
  · rw [dif_neg hk]
    cases rest with
    | nil => exact .ok h'
    | cons t rest =>
      have ht : w'.kind = t.kind := h'.kind
      simp only [if_neg (ht ▸ hk)]
      exact .ok h'
termination_by 5 * w.left + 4
decreasing_by all_goals simp only [Level.height] at *; omega

end

theorem parse_cases (source : Source) :
    (∃ node, Reader.parse (ofText source.text) = .ok node ∧ (parse source).1 = .ok node ∧
        At source [] (parse source).2) ∨
      ∃ failure, Reader.parse (ofText source.text) = .error failure ∧
        (parse source).1 = .error (.ofFailure source failure) ∧
        At source failure.rest (parse source).2 := by
  have hsum := ends_level .sum _ _ (at_start source)
  rw [parse_eq, parse]
  generalize read .sum (ofText source.text) = r at hsum ⊢
  generalize level .sum (start source) = outcome at hsum ⊢
  obtain ⟨result, w, hw⟩ := outcome
  cases hsum with
  | error h => exact .inr ⟨_, rfl, rfl, h⟩
  | @ok node rest _ h =>
    by_cases hk : w.kind = .endOfInput
    · obtain rfl := h.eq_nil hk
      refine .inl ⟨node, rfl, ?_⟩
      simp only [Outcome.andThen, if_pos hk]
      exact ⟨rfl, h⟩
    · obtain ⟨rest', rfl, -, -⟩ := h.exists_advance rfl hk
      refine .inr ⟨⟨.finish, w.current :: rest'⟩, rfl, ?_⟩
      simp only [Outcome.andThen, if_neg hk]
      rw [Outcome.widen, Walk.fail, h.source_eq]
      exact ⟨rfl, h⟩

/-- An error points at the token at which the cursor is left. -/
theorem At.pointsAt_iff {failure : Failure} (h : At source failure.rest w)
    (hp : Reader.parse (ofText source.text) = .error failure) (k : Nat) :
    PointsAt source (.ofFailure source failure) k ↔ k = w.passed.length := by
  obtain ⟨s, taken, hts, -, hd⟩ := exists_stuck_of_parse hp
  obtain rfl : taken = w.passed := List.append_cancel_right (hts.symm.trans h.passed)
  exact hd.pointsAt_iff hts k

/-- The descent ends on every text, with the result of the reader. Its moves, counted from the start
of the text, have gone past the first of the tokens, past each one once and never past the end of
the input. They have gone past all tokens if the text is read, and if not, past those before the one
that its error points at. -/
theorem parse_moves (source : Source) :
    let tokens := ofText source.text
    let result := (parse source).1
    let last := (parse source).2
    result = parseSource source ∧
      last.cursor = Cursor.advance^[last.passed.length] (.start source) ∧
      last.passed <+: tokens ∧ last.passed.Nodup ∧
      (∀ t ∈ last.passed, t.kind ≠ .endOfInput) ∧
      (∀ node, result = .ok node → last.passed.length = tokens.length) ∧
      ∀ error, result = .error error → ∀ k, PointsAt source error k ↔ k = last.passed.length := by
  intro tokens result last
  obtain ⟨rest, h, hresult, hok, herror⟩ : ∃ rest, At source rest last ∧
      result = parseSource source ∧ (∀ node, result = .ok node → rest = []) ∧
      ∀ error, result = .error error → ∀ k, PointsAt source error k ↔ k = last.passed.length := by
    rcases parse_cases source with ⟨node, hr, hresult, h⟩ | ⟨failure, hr, hresult, h⟩
    · refine ⟨[], h, ?_, fun _ _ => rfl, fun error he => ?_⟩
      · rw [parseSource, hr]
        exact hresult
      · cases hresult.symm.trans he
    · refine ⟨failure.rest, h, ?_, fun node hn => ?_, fun error he => ?_⟩
      · rw [parseSource, hr]
        exact hresult
      · cases hresult.symm.trans hn
      · obtain rfl : SyntaxError.ofFailure source failure = error :=
          Except.error.inj (hresult.symm.trans he)
        exact h.pointsAt_iff hr
  have hpassed : last.passed <+: tokens := ⟨rest, h.passed.symm⟩
  refine ⟨hresult, h.cursor, hpassed, ?_, ?_, fun node hn => ?_, herror⟩
  · exact hpassed.sublist.nodup (.of_map _ (Token.nodup_stops source))
  · exact fun t ht => Token.not_isEnd_of_mem_scanAll (hpassed.subset ht)
  · rw [show tokens = _ from h.passed, hok node hn, List.append_nil]

/-- In `(a + f()` the parser moves past all tokens but the parenthesis that closes nothing. -/
theorem parse_moves_emptyArguments :
    let source : Source := ⟨none, "(a + f()"⟩
    (parse source).1 = .error ⟨source, ⟨6, 2⟩, .emptyArguments "f"⟩ ∧
      (parse source).2.passed.length = 5 := by
  intro source
  have hts : ofText source.text = [⟨.leftParen, "(", 0⟩, ⟨.name, "a", 1⟩, ⟨.plus, "+", 3⟩,
      ⟨.name, "f", 5⟩, ⟨.leftParen, "(", 6⟩, ⟨.rightParen, ")", 7⟩] := by
    decide +kernel
  have hp : Reader.parse (ofText source.text) =
      .error ⟨.argument ⟨.name, "f", 5⟩ ⟨.leftParen, "(", 6⟩, [⟨.rightParen, ")", 7⟩]⟩ := by
    rw [hts]
    exact run_start_eq_error.mp rfl
  obtain ⟨hresult, -, -, -, -, -, hpoint⟩ := parse_moves source
  have herror := hresult.trans (parseSource_eq_error_iff.mpr ⟨_, hp, rfl⟩)
  refine ⟨herror, ((hpoint _ herror 5).mp ⟨⟨.rightParen, ")", 7⟩, ?_, rfl, rfl⟩).symm⟩
  rw [Token.withEnd, hts]
  rfl

end Walk

end Formula
