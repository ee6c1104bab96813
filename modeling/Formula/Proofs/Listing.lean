import Formula.Proofs.Displays
import Formula.Proofs.ErrorPlace
import Formula.Proofs.Outcomes

/-! What the command line lists of a text, and what it has to say about the same text as an
expression. The listing parts the tokens into those of the language and invalid ones. A text with an
invalid token is no expression, and is refused at that token or in front of it; if it is refused at
an invalid token, then at the first one. -/

namespace Formula

open Text (Source)
open Token (ofText endOf withEnd)

namespace Text

theorem breaksBefore_le (cs : List Char) {a b : Nat} (h : a ≤ b) :
    breaksBefore cs a ≤ breaksBefore cs b := by
  induction cs generalizing a b with
  | nil => exact Nat.le_refl _
  | cons c cs ih =>
    rw [breaksBefore, breaksBefore]
    by_cases ha : a = 0
    · rw [if_pos ha]
      exact Nat.zero_le _
    · have hb : b ≠ 0 := by omega
      rw [if_neg ha, if_neg hb]
      exact Nat.add_le_add_left (ih (Nat.sub_le_sub_right h _)) _

theorem Source.line_le (source : Source) {a b : Nat} (h : a ≤ b) : source.line a ≤ source.line b :=
  Nat.add_le_add_right (breaksBefore_le source.text.toList h) 1

end Text

namespace Token

section

variable {source : Source} {taken rest : List Token}

theorem withEnd_eq (hts : ofText source.text = taken ++ rest) :
    withEnd source = taken ++ (rest ++ [endOf source]) := by
  rw [withEnd, hts, List.append_assoc]

theorem offset_lt_place (hts : ofText source.text = taken ++ rest) {t : Token} (ht : t ∈ taken) :
    t.offset < (rest.headD (endOf source)).offset := by
  have hpair := pairwise_offsets source
  rw [withEnd_eq hts] at hpair
  refine (List.pairwise_append.mp hpair).2.2 t ht _ ?_
  cases rest <;> simp

theorem eq_place_or_lt (hts : ofText source.text = taken ++ rest) {t : Token} (ht : t ∈ rest) :
    t = rest.headD (endOf source) ∨ (rest.headD (endOf source)).offset < t.offset := by
  have hpair := pairwise_offsets source
  rw [withEnd_eq hts] at hpair
  cases rest with
  | nil => cases ht
  | cons u rest =>
    rcases List.mem_cons.mp ht with rfl | ht
    · exact .inl rfl
    · have hrest := (List.pairwise_append.mp hpair).2.1
      exact .inr (List.rel_of_pairwise_cons hrest (List.mem_append_left _ ht))

end

end Token

namespace Track

theorem Step.kind_ne_invalid {s s' : Track} {t : Token} (h : Step t s s') : t.kind ≠ .invalid := by
  cases h with
  | operator hk => rcases hk with hk | hk | hk | hk <;> simp [hk]
  | number hk | name hk | group hk _ | call hk | close hk | comma hk => simp [hk]

theorem not_isInvalid_of_steps {s s' : Track} {ts : List Token} (h : steps s ts = some s') :
    ∀ t ∈ ts, ¬ t.isInvalid := by
  induction ts generalizing s with
  | nil => simp
  | cons u ts ih =>
    obtain ⟨s₁, hstep, hsteps⟩ := Option.bind_eq_some_iff.mp h
    refine List.forall_mem_cons.mpr ⟨?_, ih hsteps⟩
    simpa [Token.isInvalid] using (Step.of_step hstep).kind_ne_invalid

theorem Stuck.find?_isInvalid {s : Track} {taken rest : List Token} (h : s.Stuck taken rest) :
    (taken ++ rest).find? Token.isInvalid = rest.find? Token.isInvalid := by
  rw [List.find?_append, List.find?_eq_none.mpr (not_isInvalid_of_steps h.taken), Option.none_or]

end Track

/-- The span of an error is that of the token at which the text is refused, or it starts at a
parenthesis in front of it. -/
theorem Diagnosis.span_cases {source : Source} {taken : List Token} {e : Token}
    {error : SyntaxError} (h : Diagnosis source taken e error) :
    error.source = source ∧ (error.span = e.span ∨
      ∃ o ∈ taken, o.kind = .leftParen ∧ error.span.offset = o.offset) := by
  cases h with
  | unexpectedEnd | unexpectedToken | missingClose | trailingInput => exact ⟨rfl, .inl rfl⟩
  | @emptyArguments n o hc _ => exact ⟨rfl, .inr ⟨o, hc.mem, hc.2.2, rfl⟩⟩

variable {source : Source} {error : SyntaxError}

/-- An error is noticed at the first invalid token or in front of it. -/
theorem offset_le_of_invalid (h : parseSource source = .error error) {first : Token}
    (hfirst : (ofText source.text).find? Token.isInvalid = some first) :
    error.source = source ∧ error.span.offset ≤ first.offset := by
  obtain ⟨s, taken, rest, hts, hstuck, hd⟩ := exists_stuck h
  rw [hts, hstuck.find?_isInvalid] at hfirst
  have hle : (rest.headD (endOf source)).offset ≤ first.offset := by
    rcases Token.eq_place_or_lt hts (List.mem_of_find?_eq_some hfirst) with rfl | hlt
    · exact Nat.le_refl _
    · exact Nat.le_of_lt hlt
  obtain ⟨hsource, hspan | ⟨o, ho, -, hspan⟩⟩ := hd.span_cases
  · exact ⟨hsource, by rwa [hspan]⟩
  · have hopening := Token.offset_lt_place hts ho
    exact ⟨hsource, by omega⟩

/-- An error that shows an invalid token shows the first one. -/
theorem find?_isInvalid_of_span (h : parseSource source = .error error) {t : Token}
    (ht : t ∈ ofText source.text) (hinvalid : t.kind = .invalid) (hspan : error.span = t.span) :
    (ofText source.text).find? Token.isInvalid = some t := by
  obtain ⟨s, taken, rest, hts, hstuck, hd⟩ := exists_stuck h
  have hinvalid' : t.isInvalid := by simp [Token.isInvalid, hinvalid]
  have hrest : t ∈ rest := by
    rw [hts] at ht
    exact (List.mem_append.mp ht).resolve_left fun hmem =>
      Track.not_isInvalid_of_steps hstuck.taken t hmem hinvalid'
  obtain ⟨-, hplace | ⟨o, ho, -, hopening⟩⟩ := hd.span_cases
  · rcases Token.eq_place_or_lt hts hrest with heq | hlt
    · rw [hts, hstuck.find?_isInvalid]
      cases rest with
      | nil => cases hrest
      | cons u rest =>
        obtain rfl : t = u := heq
        exact List.find?_cons_of_pos hinvalid'
    · have hoffset : t.offset = _ := congrArg Text.Span.offset (hspan.symm.trans hplace)
      exact absurd hlt (Nat.not_lt.mpr (Nat.le_of_eq hoffset))
  · -- A parenthesis that was taken stands in front of the place, and the token does not.
    have hlt := Token.offset_lt_place hts ho
    have hoffset : t.offset = o.offset := by rw [← hopening, hspan]; rfl
    rcases Token.eq_place_or_lt hts hrest with heq | hlt'
    · rw [heq] at hoffset
      omega
    · omega

theorem exists_error_of_invalid {t : Token} (ht : t ∈ ofText source.text)
    (hinvalid : t.isInvalid) : ∃ error, parseSource source = .error error := by
  cases hparse : parseSource source with
  | error error => exact ⟨error, rfl⟩
  | ok node =>
    obtain ⟨s, hsteps, -⟩ :=
      Track.run_eq_ok_iff.mp (run_start_eq_ok_iff.mpr ⟨node, parseSource_eq_ok.mp hparse⟩)
    exact absurd hinvalid (Track.not_isInvalid_of_steps hsteps t ht)

namespace Command

/-- What a listing says of an invalid token. -/
def complaint (source : Source) (t : Token) : String :=
  headline (source.line t.offset) ("Unexpected character: " ++ t.literal)

/-- The tokens are those of the language and the invalid ones, each of them in one of the two lists
and in the order of the text. -/
inductive Separates : List Token → List Token → List Token → Prop
  | nil : Separates [] [] []
  | valid {t ts valid invalid} : t.kind ≠ .invalid → Separates ts valid invalid →
      Separates (t :: ts) (t :: valid) invalid
  | invalid {t ts valid invalid} : t.kind = .invalid → Separates ts valid invalid →
      Separates (t :: ts) valid (t :: invalid)

/-- What is printed is a list of the tokens: a line for each token of the language and one for the
end, and apart from them a line for each invalid token, with line numbers that never decrease. -/
structure Lists (source : Source) (outcome : Outcome) (valid invalid : List Token)
    (shown : List String) : Prop where
  separates : Separates (ofText source.text) valid invalid
  status : outcome.status = if invalid = [] then 0 else 65
  displays : List.Forall₂ Token.Displays valid shown
  stdout : outcome.stdout = lines (shown ++ ["EOF  null"])
  stderr : ∀ draw, outcome.written draw = lines (invalid.map (complaint source))
  unbroken : ∀ line ∈ shown ++ invalid.map (complaint source), '\n' ∉ line.toList
  ascending : invalid.Pairwise fun t u => source.line t.offset ≤ source.line u.offset

structure Refuses (outcome : Outcome) (error : SyntaxError) : Prop where
  status : outcome.status = 65
  stdout : outcome.stdout = ""
  stderr : ∀ draw, outcome.written draw =
    headline error.line error.cause.message ++ "\n" ++ draw (.unreadable error) ++ "\n"

theorem separates_filter (ts : List Token) :
    Separates ts (ts.filter fun t => !t.isInvalid) (ts.filter Token.isInvalid) := by
  induction ts with
  | nil => exact .nil
  | cons t ts ih =>
    by_cases ht : t.kind = .invalid
    · simpa [Token.isInvalid, ht] using Separates.invalid ht ih
    · simpa [Token.isInvalid, ht] using Separates.valid ht ih

theorem Separates.mem {ts valid invalid : List Token} (h : Separates ts valid invalid) :
    ∀ t ∈ valid, t ∈ ts := by
  induction h with
  | nil => exact fun t ht => ht
  | valid _ _ ih =>
    exact List.forall_mem_cons.mpr
      ⟨List.mem_cons_self, fun t ht => List.mem_cons_of_mem _ (ih t ht)⟩
  | invalid _ _ ih => exact fun t ht => List.mem_cons_of_mem _ (ih t ht)

theorem invalidLine_eq (source : Source) (t : Token) :
    invalidLine source t = complaint source t := by
  simp only [invalidLine, complaint, headline, String.append_assoc]
  rfl

theorem written_tokenize (draw : Report → String) (source : Source) :
    (tokenize source).written draw =
      lines (((ofText source.text).filter Token.isInvalid).map (complaint source)) := by
  rw [Outcome.written, tokenize, Option.elim_none, String.append_empty]
  exact congrArg lines (List.map_congr_left fun t _ => invalidLine_eq source t)

theorem not_break_complaint {source : Source} {t : Token} (ht : t ∈ ofText source.text) :
    '\n' ∉ (complaint source t).toList := by
  have hline (n : Nat) : '\n' ∉ Nat.toDigits 10 n := fun hmem => by
    cases Number.Decimal.isDigit_of_mem_toDigits n '\n' hmem
  have hliteral := Token.not_mem_literal ht (c := '\n') (by decide)
  simp [complaint, headline, hline, hliteral]

theorem lists_tokenize (source : Source) :
    ∃ valid invalid shown, Lists source (tokenize source) valid invalid shown := by
  refine ⟨_, _, _, separates_filter (ofText source.text), rfl,
    List.forall₂_map_right_iff.mpr (List.forall₂_same.mpr fun t _ => Token.displays_describe t),
    rfl, fun draw => written_tokenize draw source, ?_, ?_⟩
  · intro line hline
    rcases List.mem_append.mp hline with hline | hline
    · obtain ⟨t, ht, rfl⟩ := List.mem_map.mp hline
      exact (Token.displays_describe t).unbroken (List.mem_of_mem_filter ht)
    · obtain ⟨t, ht, rfl⟩ := List.mem_map.mp hline
      exact not_break_complaint (List.mem_of_mem_filter ht)
  · refine (List.Pairwise.imp ?_ (Token.pairwise_offsets source)).sublist ?_
    · exact fun h => source.line_le (Nat.le_of_lt h)
    · exact List.filter_sublist.trans (List.sublist_append_left _ _)

theorem lines_cons (x : String) (xs : List String) :
    (lines (x :: xs)).toList = x.toList ++ '\n' :: (lines xs).toList := by
  simp [lines]

theorem lines_inj : (xs ys : List String) → (∀ x ∈ xs, '\n' ∉ x.toList) →
    (∀ y ∈ ys, '\n' ∉ y.toList) → lines xs = lines ys → xs = ys
  | [], [], _, _, _ => rfl
  | [], y :: ys, _, _, h => by simpa [lines] using congrArg String.toList h
  | x :: xs, [], _, _, h => by simpa [lines] using congrArg String.toList h
  | x :: xs, y :: ys, hxs, hys, h => by
    have hlist := congrArg String.toList h
    rw [lines_cons, lines_cons] at hlist
    obtain ⟨hx, hxs⟩ := List.forall_mem_cons.mp hxs
    obtain ⟨hy, hys⟩ := List.forall_mem_cons.mp hys
    obtain ⟨hline, hrest⟩ := Token.eq_of_append_cons _ _ hx hy hlist
    rw [String.toList_inj.mp hline, lines_inj xs ys hxs hys (String.toList_inj.mp hrest)]

/-- A list of what is displayed shows all there is to a token but its place. -/
theorem Lists.same {source source' : Source} {outcome outcome' : Outcome}
    {valid invalid valid' invalid' : List Token} {shown shown' : List String}
    (h : Lists source outcome valid invalid shown)
    (h' : Lists source' outcome' valid' invalid' shown')
    (hstdout : outcome'.stdout = outcome.stdout) :
    List.Forall₂ Token.Same valid valid' := by
  have hend : '\n' ∉ "EOF  null".toList := by decide
  have hlines : shown ++ ["EOF  null"] = shown' ++ ["EOF  null"] := by
    apply lines_inj
    · simpa [or_imp, forall_and, hend] using (List.forall_mem_append.mp h.unbroken).1
    · simpa [or_imp, forall_and, hend] using (List.forall_mem_append.mp h'.unbroken).1
    · rw [← h.stdout, ← h'.stdout, hstdout]
  obtain rfl := List.append_cancel_right hlines
  exact Token.forall₂_same h.separates.mem h'.separates.mem h.displays h'.displays

theorem exists_stderr_tokenize {source : Source} {first : Token}
    (hfirst : (ofText source.text).find? Token.isInvalid = some first) :
    ∃ more, ∀ draw, (tokenize source).written draw = complaint source first ++ "\n" ++ more := by
  obtain ⟨rest, hrest⟩ : ∃ rest, (ofText source.text).filter Token.isInvalid = first :: rest := by
    rw [← List.head?_eq_some_iff, List.head?_filter, hfirst]
  refine ⟨lines (rest.map (complaint source)), fun draw => ?_⟩
  rw [written_tokenize, hrest]
  simp [lines, String.join_cons]

theorem status_tokenize_eq_iff (source : Source) : (tokenize source).status = 65 ↔
    ∃ first, (ofText source.text).find? Token.isInvalid = some first := by
  rw [← Option.isSome_iff_exists, List.find?_isSome]
  simp [tokenize]

section Runs

variable {request : Request}

theorem run_eq_tokenize (hverb : request.verb = .tokenize) (hbindings : request.bindings = [])
    (hsource : request.source? = .ok (some source)) : request.run = tokenize source := by
  simp only [Request.run, Request.bound, hverb, hbindings, reduceCtorEq, if_false, if_true, hsource]

theorem run_eq_printTree (hverb : request.verb = .parse) (hbindings : request.bindings = [])
    (hsource : request.source? = .ok (some source)) : request.run = printTree source := by
  simp only [Request.run, Request.bound, hverb, hbindings, reduceCtorEq, if_false, if_true, hsource]

theorem refuses_syntaxFailure (error : SyntaxError) : Refuses (syntaxFailure error) error :=
  ⟨rfl, rfl, fun draw => written_syntaxFailure draw error⟩

theorem refuses_printTree (h : parseSource source = .error error) :
    Refuses (printTree source) error := by
  simp only [printTree, h]
  exact refuses_syntaxFailure error

theorem refuses_eval {bound : List (String × Float)} (h : parseSource source = .error error) :
    Refuses (eval bound source) error := by
  rw [eval_of_error h]
  exact refuses_syntaxFailure error

end Runs

variable {text? : Option String} {file? : Option FileInput}

/-- Asked to list the tokens of a text, to show its tree and for its value, the command line agrees
on what is wrong with its characters. Each token is listed once, so that the list tells all of them.
A text with an invalid token is refused in both other ways, at the first such token or in front of
it; and if an error shows an invalid token, then it is the first one, so that its line is the first
line of the complaints. -/
theorem run_tokenize_agrees
    (hsource : (⟨.tokenize, [], text?, file?⟩ : Request).source? = .ok (some source)) :
    let listing := (⟨.tokenize, [], text?, file?⟩ : Request).run
    (∃ valid invalid shown, Lists source listing valid invalid shown ∧
      ∀ other source' valid' invalid' shown', Lists source' other valid' invalid' shown' →
        other.stdout = listing.stdout → List.Forall₂ Token.Same valid valid') ∧
    (listing.status = 65 → ∃ first error,
      (ofText source.text).find? Token.isInvalid = some first ∧
      (∃ more, ∀ draw, listing.written draw = complaint source first ++ "\n" ++ more) ∧
      parseSource source = .error error ∧ error.span.offset ≤ first.offset ∧
      error.line ≤ source.line first.offset ∧
      Refuses (⟨.parse, [], text?, file?⟩ : Request).run error ∧
      ∀ (bindings : List String) (bound : List (String × Float)),
        List.Forall₂ (fun text binding => Binds text binding.1 binding.2) bindings bound →
        Refuses (⟨.eval, bindings, text?, file?⟩ : Request).run error) ∧
    ∀ error, parseSource source = .error error → ∀ t ∈ ofText source.text, t.kind = .invalid →
      error.span = t.span →
      (ofText source.text).find? Token.isInvalid = some t ∧ error.line = source.line t.offset ∧
      ∃ more, ∀ draw, listing.written draw =
        headline error.line ("Unexpected character: " ++ t.literal) ++ "\n" ++ more := by
  intro listing
  have hlisting : listing = tokenize source := run_eq_tokenize rfl rfl hsource
  -- The same text is asked for with each of the verbs.
  have hsame (verb : Verb) (bindings : List String) :
      (⟨verb, bindings, text?, file?⟩ : Request).source? = .ok (some source) := hsource
  rw [hlisting, status_tokenize_eq_iff]
  refine ⟨?_, ?_, ?_⟩
  · obtain ⟨valid, invalid, shown, hlists⟩ := lists_tokenize source
    exact ⟨valid, invalid, shown, hlists, fun _ _ _ _ _ h => hlists.same h⟩
  · rintro ⟨first, hfirst⟩
    obtain ⟨error, herror⟩ := exists_error_of_invalid (List.mem_of_find?_eq_some hfirst)
      (List.find?_some hfirst)
    obtain ⟨rfl, hle⟩ := offset_le_of_invalid herror hfirst
    refine ⟨first, error, hfirst, exists_stderr_tokenize hfirst, herror, hle,
      error.source.line_le hle, ?_, ?_⟩
    · rw [run_eq_printTree rfl rfl (hsame .parse [])]
      exact refuses_printTree herror
    · intro bindings bound hbound
      rw [run_eq_eval rfl hbound (hsame .eval bindings)]
      exact refuses_eval herror
  · intro error herror t ht hinvalid hspan
    have hfirst := find?_isInvalid_of_span herror ht hinvalid hspan
    obtain ⟨rfl, -⟩ := offset_le_of_invalid herror hfirst
    have hline : error.line = error.source.line t.offset := by
      rw [SyntaxError.line, hspan]
      rfl
    refine ⟨hfirst, hline, ?_⟩
    rw [hline]
    exact exists_stderr_tokenize hfirst

theorem run_tokenize_agrees_unclosed :
    let source : Source := ⟨none, "(1 $\n#"⟩
    let stray : Token := ⟨.invalid, "$", 3⟩
    let error : SyntaxError := ⟨source, stray.span, .missingClose ⟨0, 1⟩⟩
    let request : Request := ⟨.tokenize, [], some source.text, none⟩
    request.source? = .ok (some source) ∧ request.run.status = 65 ∧
      parseSource source = .error error ∧ stray ∈ ofText source.text ∧
      (ofText source.text).find? Token.isInvalid = some stray ∧ error.line = 1 ∧
      (∃ more, ∀ draw, request.run.written draw =
        headline 1 "Unexpected character: $" ++ "\n" ++ more) ∧
      Refuses (⟨.parse, [], some source.text, none⟩ : Request).run error ∧
      Refuses (⟨.eval, ["x = 1"], some source.text, none⟩ : Request).run error := by
  intro source stray error request
  have hts : ofText source.text = [⟨.leftParen, "(", 0⟩, ⟨.number 1, "1", 1⟩, stray,
      ⟨.invalid, "#", 5⟩] := by decide +kernel
  have hparse : parseSource source = .error error := by
    refine parseSource_eq_error_iff.mpr
      ⟨⟨.close ⟨.leftParen, "(", 0⟩, [stray, ⟨.invalid, "#", 5⟩]⟩, ?_, rfl⟩
    rw [hts]
    exact run_start_eq_error.mp rfl
  have hmem : stray ∈ ofText source.text := by simp [hts]
  have hbound : List.Forall₂ (fun text binding => Binds text binding.1 binding.2) ["x = 1"]
      [("x", 1)] := readBindings_eq_ok_iff.mp rfl
  obtain ⟨-, hrefused, hshown⟩ :=
    @run_tokenize_agrees source (some source.text) none rfl
  obtain ⟨hfirst, hline, hstderr⟩ := hshown error hparse stray hmem rfl rfl
  have hstatus : request.run.status = 65 := (status_tokenize_eq_iff source).mpr ⟨stray, hfirst⟩
  obtain ⟨first, error', -, -, herror, -, -, hprinted, hevaluated⟩ := hrefused hstatus
  obtain rfl := Except.error.inj (hparse.symm.trans herror)
  have hone : source.line stray.offset = 1 := by decide +kernel
  rw [hline, hone] at hstderr
  exact ⟨rfl, hstatus, hparse, hmem, hfirst, hline.trans hone, hstderr, hprinted,
    hevaluated _ _ hbound⟩

end Command

end Formula
