import Formula.Proofs.Outcomes
import Formula.Proofs.Readable
import Formula.Proofs.Written

/-! What is printed can be bound again. Every double is read back from its text, with blanks around
it or not, also one that is not finite and so is no number of the expression language; and a name
that is bound to a printed value is evaluated to what was printed. -/

namespace Formula

open Text (Source isBlank trim)

namespace Text

def Blank (text : String) : Prop := ∀ c ∈ text.toList, isBlank c

structure Trimmed (cs : List Char) : Prop where
  front : ∀ c ∈ cs.head?, isBlank c = false
  back : ∀ c ∈ cs.getLast?, isBlank c = false

theorem trimmed_of_not_isBlank {cs : List Char} (h : ∀ c ∈ cs, isBlank c = false) : Trimmed cs where
  front c hc := h c (List.mem_of_mem_head? hc)
  back c hc := h c (List.mem_of_mem_getLast? hc)

theorem trimStart_of_head {cs : List Char} (h : ∀ c ∈ cs.head?, isBlank c = false) :
    trimStart cs = cs := by
  cases cs with
  | nil => rfl
  | cons c cs => exact Token.trimStart_cons (h c rfl) cs

/-- Blanks at the ends are removed, and nothing else. -/
theorem Trimmed.trim_append {cs front back : List Char} (h : Trimmed cs)
    (hfront : ∀ c ∈ front, isBlank c) (hback : ∀ c ∈ back, isBlank c) :
    trim (front ++ (cs ++ back)) = cs := by
  have hreverse : ∀ c ∈ back.reverse, isBlank c := by simpa using hback
  have hlast : ∀ c ∈ cs.reverse.head?, isBlank c = false := by
    rw [List.head?_reverse]
    exact h.back
  rw [trim, trimStart, List.dropWhile_append_of_pos hfront]
  cases cs with
  | nil =>
    rw [List.nil_append, List.dropWhile_eq_nil_iff.mpr hback]
    rfl
  | cons c cs =>
    have hstart : trimStart (c :: (cs ++ back)) = c :: (cs ++ back) := trimStart_of_head h.front
    rw [trimStart] at hstart
    rw [List.cons_append, hstart, trimEnd, ← List.cons_append, List.reverse_append, trimStart,
      List.dropWhile_append_of_pos hreverse, ← trimStart, trimStart_of_head hlast,
      List.reverse_reverse]

theorem Blank.not_mem {text : String} (h : Blank text) {c : Char} (hc : isBlank c = false) :
    c ∉ text.toList := fun hmem => by
  rw [h c hmem] at hc
  cases hc

end Text

theorem IsName.not_isBlank {name : String} (h : IsName name) :
    '=' ∉ name.toList ∧ ∀ c ∈ name.toList, isBlank c = false := by
  obtain ⟨c, cs, hname, hc, hcs⟩ := h
  have hall : ∀ d ∈ name.toList, Token.inName d := by
    rw [hname]
    refine List.forall_mem_cons.mpr ⟨?_, fun d hd => inName_iff.mpr (hcs d hd)⟩
    rw [inName_iff, Char.isAlphanum, Bool.or_eq_true]
    exact hc.imp_left .inl
  exact ⟨fun hmem => absurd (hall '=' hmem) (by decide),
    fun d hd => Token.isBlank_of_inName (hall d hd)⟩

namespace Command

open Number (IsNumeral plain)
open Text (Blank Trimmed trimmed_of_not_isBlank)

theorem readBinding_plain {name front gap gap' back : String} (hname : '=' ∉ name.toList)
    (htrimmed : Trimmed name.toList) (hblank : ∀ text ∈ [front, gap, gap', back], Blank text)
    (value : Float) :
    readBinding (front ++ name ++ gap ++ "=" ++ gap' ++ plain value ++ back) =
      .ok (name, value) := by
  simp only [List.forall_mem_cons, List.not_mem_nil, false_imp_iff, implies_true, and_true]
    at hblank
  obtain ⟨hfront, hgap, hgap', hback⟩ := hblank
  rw [readBinding_eq_ok_iff]
  refine ⟨front.toList ++ (name.toList ++ gap.toList),
    gap'.toList ++ ((plain value).toList ++ back.toList), by simp, ?_, ?_, ?_⟩
  · simp [hname, hfront.not_mem, hgap.not_mem, show isBlank '=' = false by decide]
  · rw [htrimmed.trim_append hfront hgap, String.ofList_toList]
  · have hplain := trimmed_of_not_isBlank (Number.not_isBlank_plain value)
    rw [hplain.trim_append hgap' hback, Number.read_plain]

theorem readBinding_eq_error_iff (binding : String) :
    (∃ error, readBinding binding = .error error) ↔ '=' ∉ binding.toList ∨
      ∃ left right, binding.toList = left ++ '=' :: right ∧ '=' ∉ left ∧
        ¬ IsNumeral (trim right) := by
  constructor
  · rintro ⟨error, herror⟩
    by_cases hmem : '=' ∈ binding.toList
    · obtain ⟨left, right, htext, hleft⟩ := List.eq_append_cons_of_mem hmem
      refine .inr ⟨left, right, htext, hleft, fun hnumeral => ?_⟩
      obtain ⟨value, hvalue⟩ := (Number.exists_read_iff _).mpr hnumeral
      rw [readBinding_of_split htext hleft, hvalue] at herror
      cases herror
    · exact .inl hmem
  · rintro (hmem | ⟨left, right, htext, hleft, hno⟩)
    · exact ⟨_, readBinding_of_not_mem hmem⟩
    · rw [readBinding_of_split htext hleft]
      cases hread : Number.read (trim right) with
      | ok value => exact absurd ((Number.exists_read_iff _).mp ⟨value, hread⟩) hno
      | error error => exact ⟨_, rfl⟩

/-- Where a value is printed, this is its text. -/
theorem exists_plain_of_status {request : Request} (hverb : request.verb = .eval)
    (h : request.run.status = 0) : ∃ value, request.run.stdout = plain value ++ "\n" := by
  cases hbound : request.bound with
  | error error => simp [Request.run, hbound, usageFailure] at h
  | ok bound =>
    cases hsource : request.source? with
    | error error => simp [Request.run, hbound, hsource, usageFailure] at h
    | ok source? =>
      cases source? with
      | none => simp [Request.run, hbound, hsource] at h
      | some source =>
        have hrun : request.run = eval bound source := by
          simp only [Request.run, hbound, hsource, hverb]
        rw [hrun] at h ⊢
        obtain ⟨-, value, -, -, hstdout⟩ := exists_value_of_status h
        exact ⟨value, hstdout⟩

theorem eval_bound_name {name : String} (hname : IsName name) (value : Float)
    (file : Option String) :
    (eval [(name, value)] ⟨file, name⟩).status = 0 ∧
      (eval [(name, value)] ⟨file, name⟩).stdout = plain value ++ "\n" := by
  have hparse : parseSource ⟨file, name⟩ = .ok (.var name) :=
    parseSource_eq_ok.mpr ((denotes_name hname).operand.sum 0)
  have hmeaning : meaning [(name, value)] name [] = .ok value := by
    simp [meaning, Bindings.lastValue?]
  have hstatus : (eval [(name, value)] ⟨file, name⟩).status = 0 := by
    refine (evaluates_eval (fun _ => "") _ _).status_eq_value_iff.mpr ⟨_, hparse, ?_⟩
    simpa using meaning_eq_ok_iff.mp ⟨value, hmeaning⟩
  refine ⟨hstatus, ?_⟩
  obtain ⟨t, printed, ht, hvalue, hstdout⟩ := exists_value_of_status hstatus
  obtain rfl := Except.ok.inj (hparse.symm.trans ht)
  rw [Node.evaluate, scope, Context.outcome_stateless, hmeaning] at hvalue
  rw [hstdout, Except.ok.inj hvalue]

/-- A binding reads back what is printed for a value, with blanks around it and around the name; it
is refused if and only if it has no equality sign, or if what stands behind the first one is no
numeral. So what is printed for an expression is printed again for a name that is bound to it. -/
theorem readBinding_printed :
    (∀ (value : Float) (name front gap gap' back : String), '=' ∉ name.toList →
      Trimmed name.toList → (∀ text ∈ [front, gap, gap', back], Blank text) →
      readBinding (front ++ name ++ gap ++ "=" ++ gap' ++ plain value ++ back) =
        .ok (name, value)) ∧
    (∀ binding : String, (∃ error, readBinding binding = .error error) ↔
      '=' ∉ binding.toList ∨ ∃ left right, binding.toList = left ++ '=' :: right ∧
        '=' ∉ left ∧ ¬ IsNumeral (trim right)) ∧
    ∀ request : Request, request.verb = .eval → request.run.status = 0 →
      ∃ printed, request.run.stdout = printed ++ "\n" ∧
        ∀ (name : String) (file : Option String) (again : Request), IsName name →
          again.verb = .eval → again.bindings = [name ++ "=" ++ printed] →
          again.source? = .ok (some ⟨file, name⟩) →
          again.run.status = 0 ∧ again.run.stdout = request.run.stdout := by
  refine ⟨fun value name front gap gap' back hname htrimmed hblank =>
    readBinding_plain hname htrimmed hblank value, readBinding_eq_error_iff, ?_⟩
  intro request hverb hstatus
  obtain ⟨value, hstdout⟩ := exists_plain_of_status hverb hstatus
  refine ⟨plain value, hstdout, ?_⟩
  intro name file again hname hverb' hbindings hsource
  obtain ⟨hequality, hplain⟩ := hname.not_isBlank
  have hread : readBinding (name ++ "=" ++ plain value) = .ok (name, value) := by
    have h := @readBinding_plain name "" "" "" "" hequality (trimmed_of_not_isBlank hplain)
      (by simp [Blank]) value
    simpa using h
  have hbound : List.Forall₂ (fun text binding => Binds text binding.1 binding.2) again.bindings
      [(name, value)] := by
    rw [hbindings]
    exact .cons (readBinding_eq_ok_iff.mp hread) .nil
  rw [run_eq_eval hverb' hbound hsource, hstdout]
  exact eval_bound_name hname value file

/-- Infinity is no number of the language, but it can be bound. -/
theorem readBinding_printed_infinity :
    let request : Request := ⟨.eval, [], some "-1/0", none⟩
    let again : Request := ⟨.eval, ["x=-inf"], some "x", none⟩
    readBinding "\u3000x y =\t-inf\n" = .ok ("x y", -Number.infinity) ∧
      (∃ error, readBinding "x = - 1" = .error error) ∧
      request.run.status = 0 ∧ request.run.stdout = "-inf\n" ∧ IsName "x" ∧
      again.source? = .ok (some ⟨none, "x"⟩) ∧ again.run.status = 0 ∧
      again.run.stdout = request.run.stdout := by
  intro request again
  obtain ⟨hread, herror, hagain⟩ := readBinding_printed
  have hminus : plain (-Number.infinity) = "-inf" := by decide +kernel
  have hbound := hread (-Number.infinity) "x y" "\u3000" " " "\t" "\n" (by decide)
    ⟨by simp [isBlank, Text.blankRanges], by simp [isBlank, Text.blankRanges]⟩
    (by simp [Blank, isBlank, Text.blankRanges])
  rw [hminus] at hbound
  have hrefused : ¬ IsNumeral (trim [' ', '-', ' ', '1']) := by
    rw [← Number.exists_read_iff]
    have hmalformed : Number.read (trim [' ', '-', ' ', '1']) = .error .malformed := by
      decide +kernel
    simp [hmalformed]
  have hstatus : request.run.status = 0 := by decide +kernel
  have hstdout : request.run.stdout = "-inf" ++ "\n" := by decide +kernel
  obtain ⟨printed, hprinted, hname⟩ := hagain request rfl hstatus
  obtain rfl : "-inf" = printed := (String.append_left_inj "\n").mp (hstdout.symm.trans hprinted)
  have hx : IsName "x" := ⟨'x', [], rfl, .inl rfl, by simp⟩
  exact ⟨hbound, (herror _).mpr (.inr ⟨['x', ' '], [' ', '-', ' ', '1'], rfl, by decide, hrefused⟩),
    hstatus, hstdout, hx, rfl, hname "x" none again hx rfl rfl rfl⟩

end Command

end Formula
