import Formula.Proofs.Diagnosis

/-! What a level of the grammar takes from the front of tokens. It takes the longest phrase of the
level that stands there, and it looks no further than at the kind of the token behind it; if it
fails, it has looked no further than at the token where it does. -/

namespace Formula

open Reader Track

/-- The kind of the next token; behind the last one there is the end. -/
def nextKind : List Token → Token.Kind
  | [] => .endOfInput
  | t :: _ => t.kind

theorem nextKind_append {ts : List Token} (h : ts ≠ []) (us : List Token) :
    nextKind (ts ++ us) = nextKind ts := by
  cases ts with
  | nil => exact absurd rfl h
  | cons t ts => rfl

theorem operator?_endOfInput (l : Level) : l.operator? .endOfInput = none := by
  cases l <;> rfl

namespace Reader

theorem stops_iff_nextKind {l : Level} {rest : List Token} :
    Stops l rest ↔ l.operator? (nextKind rest) = none := by
  cases rest with
  | nil => simp [Stops, nextKind, operator?_endOfInput]
  | cons t rest => simp [Stops, nextKind]

theorem follows_iff_nextKind {l : Level} {ts rest : List Token} :
    Follows l ts rest ↔ l.tighter.operator? (nextKind rest) = none ∧
      ∀ n ∈ ts.getLast?, n.kind = .name → nextKind rest ≠ .leftParen := by
  rw [← stops_iff_nextKind]
  constructor
  · intro h
    refine ⟨h.operator, fun n hn hname => ?_⟩
    cases rest with
    | nil => simp [nextKind]
    | cons t rest => exact h.arguments n hn hname t rfl
  · rintro ⟨hstops, hcall⟩
    refine ⟨hstops, fun n hn hname o ho => ?_⟩
    cases rest with
    | nil => cases ho
    | cons t rest =>
      cases ho
      exact hcall n hn hname

end Reader

theorem Derives.loosen {l : Level} {ts : List Token} {t : Node} (h : Derives l ts t) :
    Derives .sum ts t := by
  cases l with
  | sum => exact h
  | product => exact .sum h
  | unary => exact .sum (.product h)
  | leaf => exact h.of_leaf

namespace Track

theorem run_append_of_steps {s s' : Track} {ts : List Token} (h : steps s ts = some s')
    (us : List Token) : run s (ts ++ us) = run s' us := by
  induction ts generalizing s with
  | nil =>
    cases h
    rfl
  | cons t ts ih =>
    obtain ⟨r, hr, h⟩ := Option.bind_eq_some_iff.mp h
    rw [List.cons_append, run_cons_of_step hr, ih h]

theorem run_ne_error_of_length_lt {s : Track} {ts : List Token} {failure : Failure}
    (h : ts.length < failure.rest.length) : run s ts ≠ .error failure := by
  intro hrun
  obtain ⟨taken, -, hts, -⟩ := run_eq_error hrun
  rw [hts, List.length_append] at h
  omega

theorem eq_of_accepts {s : Track} (h : s.accepts = true) : ∃ name?, s = ⟨.operator name?, []⟩ := by
  obtain ⟨phase, frames⟩ := s
  cases phase with
  | operand | argument n o => cases h
  | operator name? =>
    cases frames with
    | nil => exact ⟨name?, rfl⟩
    | cons frame frames => cases h

theorem expected_cons (s : Track) (t : Token) (ts us : List Token) :
    s.expected (t :: ts) = s.expected (t :: us) := by
  obtain ⟨phase, frames⟩ := s
  cases phase with
  | operand | argument n o => rfl
  | operator name? => cases frames <;> rfl

end Track

namespace Reader

/-- The pass agrees with the reader on a level, if the level is not tighter than signs in front. -/
def Passes (l : Level) (ts : List Token) : Prop :=
  l = .leaf → ∀ t ∈ ts.head?, t.kind ≠ .plus ∧ t.kind ≠ .minus

theorem passes_of_read {l : Level} {ts rest : List Token} {t : Node}
    (h : read l ts = .ok (t, rest)) : Passes l ts := by
  rintro rfl o ho
  obtain ⟨us, rfl⟩ := List.head?_eq_some_iff.mp ho
  constructor
  · intro hk
    rw [read_leaf_error (by rw [hk]; rfl)] at h
    cases h
  · intro hk
    rw [read_leaf_error (by rw [hk]; rfl)] at h
    cases h

/-- What is left behind a phrase does not go on with it: neither with an operand at its end, nor
with the arguments of a name at its end. -/
theorem follows_of_read {l : Level} {us rest : List Token} {t : Node}
    (h : read l (us ++ rest) = .ok (t, rest)) (hu : Derives l us t) : Follows l us rest := by
  refine ⟨(stops_of_read h).2, fun n hn hname o ho hopen => ?_⟩
  obtain ⟨rest, rfl⟩ := List.head?_eq_some_iff.mp ho
  obtain ⟨s, hs, ha⟩ := run_eq_ok_iff.mp (run_start_eq_ok_iff.mpr ⟨t, hu.loosen⟩)
  have hphase := phaseOf_of_steps hs
  -- The reader has returned, so the pass is stuck; but behind a name it would go on.
  have hpass := run_read l (us ++ o :: rest) [] (passes_of_read h)
  have hstuck : run ⟨.operator none, []⟩ (o :: rest) = .error ⟨.finish, o :: rest⟩ :=
    run_cons_of_stuck (by simp [step, stepOperator, hopen]) rest
  rw [h, show (⟨.operand, []⟩ : Track) = start from rfl, run_append_of_steps hs] at hpass
  obtain ⟨name?, rfl⟩ := eq_of_accepts ha
  cases name? with
  | none => exact hphase.2 n hn hname
  | some m =>
    have hstep : step ⟨.operator (some m), []⟩ o = some ⟨.argument m o, [⟨o, some m⟩]⟩ := by
      simp [step, stepOperator, hopen]
    rw [run_cons_of_step hstep] at hpass
    exact run_ne_error_of_length_lt (Nat.lt_succ_self _) (hpass.trans hstuck)

/-- A success does not look behind the kind of the next token. -/
theorem read_replace_rest {l : Level} {us rest : List Token} {t : Node}
    (h : read l (us ++ rest) = .ok (t, rest)) (hu : Derives l us t) {vs : List Token}
    (hv : nextKind vs = nextKind rest) : read l (us ++ vs) = .ok (t, vs) := by
  have hf : Follows l us vs := by
    rw [follows_iff_nextKind, hv, ← follows_iff_nextKind]
    exact follows_of_read h hu
  have hs : Stops l vs := by
    rw [stops_iff_nextKind, hv, ← stops_iff_nextKind]
    exact (stops_of_read h).1
  rw [hu.read_append vs hf, readChain_of_stops hs]

theorem not_derives_longer {l : Level} {us more after : List Token} {t : Node}
    (h : read l (us ++ (more ++ after)) = .ok (t, more ++ after)) (hu : Derives l us t)
    (hmore : more ≠ []) (u : Node) : ¬ Derives l (us ++ more) u := by
  intro hlonger
  have hshort := read_replace_rest h hu (nextKind_append hmore after).symm
  have hlong := hlonger.read_append [] (.nil _ _)
  rw [List.append_nil, readChain_nil, hshort] at hlong
  cases hlong
  exact hmore rfl

theorem not_passes {l : Level} {ts : List Token} (h : ¬ Passes l ts) :
    ∃ o us, l = .leaf ∧ ts = o :: us ∧ startsLeaf o.kind = false := by
  simp only [Passes, not_forall] at h
  obtain ⟨rfl, o, ho, hk⟩ := h
  obtain ⟨us, rfl⟩ := List.head?_eq_some_iff.mp ho
  refine ⟨o, us, rfl, rfl, ?_⟩
  rcases not_and_or.mp hk with hk | hk
  · rw [not_not.mp hk]
    rfl
  · rw [not_not.mp hk]
    rfl

theorem run_start_of_read_error {l : Level} {ts : List Token} {failure : Failure}
    (hp : Passes l ts) (h : read l ts = .error failure) : run start ts = .error failure := by
  have hpass := run_read l ts [] hp
  rwa [h] at hpass

theorem exists_of_read_error {l : Level} {ts : List Token} {failure : Failure}
    (h : read l ts = .error failure) : ∃ us, ts = us ++ failure.rest := by
  by_cases hp : Passes l ts
  · obtain ⟨us, -, hts, -⟩ := run_eq_error (run_start_of_read_error hp h)
    exact ⟨us, hts⟩
  · obtain ⟨o, us, rfl, rfl, ho⟩ := not_passes hp
    rw [read_leaf_error ho] at h
    cases h
    exact ⟨[], rfl⟩

theorem read_error_replace_rest {l : Level} {us rest : List Token} {e : Token} {x : Expected}
    (h : read l (us ++ e :: rest) = .error ⟨x, e :: rest⟩) (vs : List Token) :
    read l (us ++ e :: vs) = .error ⟨x, e :: vs⟩ := by
  by_cases hp : Passes l (us ++ e :: rest)
  · obtain ⟨taken, s, hts, hs, hx, hstuck⟩ := run_eq_error (run_start_of_read_error hp h)
    obtain rfl : us = taken := List.append_cancel_right hts
    have hrun : run start (us ++ e :: vs) = .error ⟨x, e :: vs⟩ := by
      have hx : x = s.expected (e :: rest) := hx
      rw [run_append_of_steps hs, run_cons_of_stuck hstuck, expected_cons s e vs rest, ← hx]
    have hp' : Passes l (us ++ e :: vs) := by
      intro hl t ht
      refine hp hl t ?_
      cases us <;> exact ht
    have hpass := run_read l (us ++ e :: vs) [] hp'
    rw [show (⟨.operand, []⟩ : Track) = start from rfl, hrun] at hpass
    cases hr : read l (us ++ e :: vs) with
    | error failure =>
      rw [hr] at hpass
      exact congrArg Except.error (Except.error.inj hpass).symm
    | ok p =>
      -- A success in front of `e` would not have looked behind `e`, so it was there before.
      obtain ⟨t, left⟩ := p
      rw [hr] at hpass
      obtain ⟨between, -, rfl, -⟩ := run_eq_error hpass.symm
      obtain ⟨front, hfront, hd⟩ := derives_of_read l _ hr
      rw [← List.append_assoc] at hfront
      obtain rfl : us = front ++ between := List.append_cancel_right hfront
      rw [List.append_assoc] at hr h
      have hkind : nextKind (between ++ e :: rest) = nextKind (between ++ e :: vs) := by
        cases between <;> rfl
      rw [read_replace_rest hr hd hkind] at h
      cases h
  · obtain ⟨o, ts, rfl, hts, ho⟩ := not_passes hp
    rw [hts, read_leaf_error ho, ← hts] at h
    obtain rfl : us = [] := by
      have hrest := congrArg Failure.rest (Except.error.inj h)
      simpa using hrest
    obtain ⟨rfl, -⟩ := List.cons.inj hts
    cases h
    exact read_leaf_error ho vs

theorem ofFailure_replace_rest (source : Text.Source) (x : Expected) (e : Token)
    (us vs : List Token) : SyntaxError.ofFailure source ⟨x, e :: us⟩ =
      SyntaxError.ofFailure source ⟨x, e :: vs⟩ := by
  cases x <;> rfl

theorem Stops.product {rest : List Token} (h : Stops .product rest) :
    nextKind rest ≠ .star ∧ nextKind rest ≠ .slash := by
  rw [stops_iff_nextKind] at h
  constructor <;> intro hk <;> rw [hk] at h <;> cases h

theorem Stops.sum {rest : List Token} (h : Stops .sum rest) :
    nextKind rest ≠ .plus ∧ nextKind rest ≠ .minus := by
  rw [stops_iff_nextKind] at h
  constructor <;> intro hk <;> rw [hk] at h <;> cases h

theorem extract_append_append (front us rest : List Token) (n : Nat) :
    (front ++ (us ++ rest)).extract front.length ((front ++ us).length + n) =
      us ++ rest.take n := by
  rw [List.extract, List.drop_left, List.length_append, Nat.add_assoc, Nat.add_sub_cancel_left,
    List.take_length_add_append]

/-- A level that is started at the token with the index `i` and succeeds takes the longest phrase of
the level that stands there, at least one token, and no operator of its own or of a tighter level
follows; only the kind of the token behind the phrase matters for that, and nothing that comes
later. For a failure nothing behind its token matters. -/
theorem read_greedy (l : Level) {ts : List Token} {i : Nat} (hi : i ≤ ts.length) :
    match read l (ts.drop i) with
    | .ok (t, rest) => ∃ j, i < j ∧ j ≤ ts.length ∧ rest = ts.drop j ∧
        Derives l (ts.extract i j) t ∧
        (∀ k, j < k → k ≤ ts.length → ∀ u, ¬ Derives l (ts.extract i k) u) ∧
        (l = .product ∨ l = .sum → nextKind rest ≠ .star ∧ nextKind rest ≠ .slash) ∧
        (l = .sum → nextKind rest ≠ .plus ∧ nextKind rest ≠ .minus) ∧
        ∀ us, nextKind us = nextKind rest → read l ((ts.take j ++ us).drop i) = .ok (t, us)
    | .error failure => ∃ k, i ≤ k ∧ k ≤ ts.length ∧ failure.rest = ts.drop k ∧
        ∀ e ∈ ts[k]?, ∀ us,
          read l ((ts.take k ++ e :: us).drop i) = .error ⟨failure.expected, e :: us⟩ ∧
          ∀ source, SyntaxError.ofFailure source ⟨failure.expected, e :: us⟩ =
            SyntaxError.ofFailure source failure := by
  obtain ⟨front, tail, rfl, rfl⟩ : ∃ front tail, ts = front ++ tail ∧ i = front.length :=
    ⟨ts.take i, ts.drop i, (List.take_append_drop i ts).symm, (List.length_take_of_le hi).symm⟩
  rw [List.drop_left]
  split
  · rename_i t rest h
    obtain ⟨us, rfl, hu⟩ := derives_of_read l tail h
    refine ⟨(front ++ us).length, ?_, ?_, ?_, ?_, ?_, ?_, ?_, ?_⟩
    · have := List.length_pos_iff.mpr hu.ne_nil
      simpa using this
    · simp
    · rw [← List.append_assoc, List.drop_left]
    · have hphrase := extract_append_append front us rest 0
      rw [List.take_zero, List.append_nil, Nat.add_zero] at hphrase
      rwa [hphrase]
    · intro k hjk hk u
      obtain ⟨n, rfl⟩ := Nat.exists_eq_add_of_lt hjk
      have hmore : rest.take (n + 1) ≠ [] := by
        rw [← List.length_pos_iff, List.length_take]
        simp only [List.length_append] at hk
        omega
      rw [Nat.add_assoc, extract_append_append]
      rw [← List.take_append_drop (n + 1) rest] at h
      exact not_derives_longer h hu hmore u
    · rintro (rfl | rfl)
      · exact (stops_of_read h).1.product
      · exact (stops_of_read h).2.product
    · rintro rfl
      exact (stops_of_read h).1.sum
    · intro vs hv
      rw [← List.append_assoc, List.take_left, List.append_assoc, List.drop_left]
      exact read_replace_rest h hu hv
  · rename_i failure h
    obtain ⟨us, rfl⟩ := exists_of_read_error h
    refine ⟨(front ++ us).length, by simp, by simp, ?_, ?_⟩
    · rw [← List.append_assoc, List.drop_left]
    · intro e he vs
      obtain ⟨x, rest⟩ := failure
      rw [← List.append_assoc, List.getElem?_append_right (Nat.le_refl _), Nat.sub_self] at he
      obtain ⟨rest, rfl⟩ := List.head?_eq_some_iff.mp (List.head?_eq_getElem? ▸ he)
      rw [← List.append_assoc, List.take_left, List.append_assoc, List.drop_left]
      exact ⟨read_error_replace_rest h vs, fun source => ofFailure_replace_rest source x e vs rest⟩

/-- Behind the sign of `-2*x-3` a product is read up to the next sign, whatever follows that. -/
theorem read_greedy_difference :
    let ts : List Token := [⟨.minus, "-", 0⟩, ⟨.number 2, "2", 1⟩, ⟨.star, "*", 2⟩, ⟨.name, "x", 3⟩,
      ⟨.minus, "-", 4⟩, ⟨.number 3, "3", 5⟩]
    let t : Node := .binary .multiply (.literal 2) (.var "x")
    1 ≤ ts.length ∧ read .product (ts.drop 1) = .ok (t, ts.drop 4) ∧
      (∀ u, ¬ Derives .product (ts.extract 1 6) u) ∧
      ∀ us, nextKind us = .minus → read .product ((ts.take 4 ++ us).drop 1) = .ok (t, us) := by
  intro ts t
  let phrase : List Token := [⟨.number 2, "2", 1⟩] ++ ⟨.star, "*", 2⟩ :: [⟨.name, "x", 3⟩]
  have hphrase : Derives .product phrase t :=
    .multiply (.product (.unary (.number rfl))) rfl (.unary (.var (n := ⟨.name, "x", 3⟩) rfl))
  have hfollows : Follows .product phrase (ts.drop 4) :=
    follows_iff_nextKind.mpr ⟨rfl, fun _ _ _ => nofun⟩
  have hread : read .product (ts.drop 1) = .ok (t, ts.drop 4) :=
    (hphrase.read_append _ hfollows).trans (readChain_stop rfl _ _)
  have hi : 1 ≤ ts.length := by decide
  have h := read_greedy .product hi
  rw [hread] at h
  obtain ⟨j, -, hj, hrest, -, hlonger, -, -, hus⟩ := h
  obtain rfl : 4 = j := by
    have := congrArg List.length hrest
    simp [ts] at this hj
    omega
  exact ⟨hi, hread, fun u => hlonger 6 (by decide) (by decide) u, hus⟩

end Reader

end Formula
