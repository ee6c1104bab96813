import Formula.Proofs.Tiling

/-! A cursor that is called in any order. Whatever it is asked in between, after `n` moves it stands
on the token with the index `n`, or on the end if there are not so many; every reply is read off the
token on which it stands, and at the end no call changes it any more. -/

namespace Formula.Cursor

open Text (Source)
open Token (endOf ofText)

inductive Call where
  | token
  | kind
  | number
  | name
  | source
  | advance
  | next

inductive Reply where
  | token (token : Token)
  | kind (kind : Token.Kind)
  | number (value? : Option Float)
  | name (name? : Option String)
  | source (name text : String)
  | advanced
  | next (token? : Option Token)

def Call.moves : Call → Bool
  | .advance => true
  | .next => true
  | _ => false

def run (cursor : Cursor) : Call → Reply × Cursor
  | .token => (.token cursor.current, cursor)
  | .kind => (.kind cursor.current.kind, cursor)
  | .number => (.number cursor.current.number?, cursor)
  | .name => (.name cursor.current.name?, cursor)
  | .source => (.source cursor.source.name cursor.source.text, cursor)
  | .advance => (.advanced, cursor.advance)
  | .next =>
    match cursor.next? with
    | some (token, moved) => (.next (some token), moved)
    | none => (.next none, cursor)

def runAll (cursor : Cursor) : List Call → List Reply × Cursor
  | [] => ([], cursor)
  | call :: calls =>
    let (reply, moved) := cursor.run call
    let (replies, last) := moved.runAll calls
    (reply :: replies, last)

/-- What is replied to a call where the token `t` stands. -/
inductive Replies (source : Source) (t : Token) : Call → Reply → Prop
  | token : Replies source t .token (.token t)
  | kind : Replies source t .kind (.kind t.kind)
  | number {value} : t.kind = .number value → Replies source t .number (.number (some value))
  | noNumber : (∀ value, t.kind ≠ .number value) → Replies source t .number (.number none)
  | name : t.kind = .name → Replies source t .name (.name (some t.literal))
  | noName : t.kind ≠ .name → Replies source t .name (.name none)
  | source : Replies source t .source (.source (source.file.getD "<input>") source.text)
  | advance : Replies source t .advance .advanced
  | next : t.kind ≠ .endOfInput → Replies source t .next (.next (some t))
  | atEnd : t.kind = .endOfInput → Replies source t .next (.next none)

theorem replies_run (cursor : Cursor) (call : Call) :
    Replies cursor.source cursor.current call (cursor.run call).1 := by
  cases call with
  | token => exact .token
  | kind => exact .kind
  | source => exact .source
  | advance => exact .advance
  | number =>
    simp only [run, Token.number?]
    split
    · exact .number ‹_›
    · exact .noNumber ‹_›
  | name =>
    simp only [run, Token.name?]
    split
    · exact .name ‹_›
    · exact .noName ‹_›
  | next =>
    simp only [run, next?]
    by_cases h : cursor.current.isEnd
    · rw [if_pos h]
      exact .atEnd (of_decide_eq_true h)
    · rw [if_neg h]
      exact .next fun hkind => h (decide_eq_true hkind)

theorem AtPlace.advance_of_isEnd {source : Source} {cursor : Cursor} (h : AtPlace source cursor)
    (hend : cursor.current.isEnd) : cursor.advance = cursor := by
  obtain ⟨hcurrent, hrest⟩ := h.ends hend
  obtain ⟨source', current, rest⟩ := cursor
  obtain rfl : current = endOf source := hcurrent
  obtain rfl : rest = [] := hrest
  rfl

/-- A call moves the cursor by one token or not at all. -/
theorem AtPlace.run_cursor {source : Source} {cursor : Cursor} (h : AtPlace source cursor)
    (call : Call) : (cursor.run call).2 = advance^[if call.moves then 1 else 0] cursor := by
  cases call with
  | token | kind | number | name | source | advance => rfl
  | next =>
    simp only [run, next?]
    by_cases hend : cursor.current.isEnd
    · rw [if_pos hend]
      exact (h.advance_of_isEnd hend).symm
    · rw [if_neg hend]
      rfl

theorem AtPlace.iterate {source : Source} {cursor : Cursor} (h : AtPlace source cursor) (k : Nat) :
    AtPlace source (advance^[k] cursor) := by
  induction k generalizing cursor with
  | zero => exact h
  | succ k ih =>
    rw [Function.iterate_succ_apply]
    exact ih h.step

/-- The cursor after any calls is the one that has only moved, as often as they did. -/
theorem AtPlace.runAll_cursor {source : Source} {cursor : Cursor} (h : AtPlace source cursor)
    (calls : List Call) : (cursor.runAll calls).2 = advance^[calls.countP Call.moves] cursor := by
  induction calls generalizing cursor with
  | nil => rfl
  | cons call calls ih =>
    have hcall := h.run_cursor call
    have hplace := h.iterate (if call.moves then 1 else 0)
    rw [← hcall] at hplace
    rw [runAll, ih hplace, hcall, ← Function.iterate_add_apply, List.countP_cons]

theorem iterate_advance_of_isEnd {source : Source} {cursor : Cursor} (h : AtPlace source cursor)
    (hend : cursor.current.isEnd) (k : Nat) : advance^[k] cursor = cursor :=
  Function.iterate_fixed (h.advance_of_isEnd hend) k

theorem source_iterate_advance (cursor : Cursor) (k : Nat) :
    (advance^[k] cursor).source = cursor.source := by
  induction k generalizing cursor with
  | zero => rfl
  | succ k ih => rw [Function.iterate_succ_apply, ih]; rfl

/-- Each move takes one token from those that are still to come. -/
theorem AtPlace.toList_iterate {source : Source} {cursor : Cursor} (h : AtPlace source cursor)
    (k : Nat) : (advance^[k] cursor).toList = cursor.toList.drop k := by
  induction k generalizing cursor with
  | zero => rfl
  | succ k ih =>
    rw [Function.iterate_succ_apply, ih h.step]
    conv => rhs; rw [toList]
    split
    · rename_i hend
      rw [h.advance_of_isEnd hend, toList, if_pos hend, List.drop_nil, List.drop_nil]
    · rw [List.drop_succ_cons]

theorem length_runAll (cursor : Cursor) (calls : List Call) :
    (cursor.runAll calls).1.length = calls.length := by
  induction calls generalizing cursor with
  | nil => rfl
  | cons call calls ih => rw [runAll, List.length_cons, List.length_cons, ih]

theorem getElem?_runAll (cursor : Cursor) (before after : List Call) (call : Call) :
    (cursor.runAll (before ++ call :: after)).1[before.length]? =
      some ((cursor.runAll before).2.run call).1 := by
  induction before generalizing cursor with
  | nil => rfl
  | cons first before ih => exact ih _

theorem getElem?_min_length (tokens : List Token) (last : Token) (k : Nat) :
    (tokens ++ [last])[min k ((tokens ++ [last]).length - 1)]? = some (tokens.getD k last) := by
  rw [List.length_append, List.length_singleton, Nat.add_sub_cancel]
  rcases Nat.lt_or_ge k tokens.length with h | h
  · rw [Nat.min_eq_left (Nat.le_of_lt h), List.getElem?_append_left h,
      List.getD_eq_getElem _ _ h, List.getElem?_eq_getElem h]
  · rw [Nat.min_eq_right h, List.getElem?_concat_length, List.getD_eq_default _ _ h]

/-- Calls of a cursor in any order. It stands on one of the tokens that a fresh cursor steps through
or on the end behind them: on the one whose index is the number of moves, or on the last. What it
would still step through are the tokens from there on. Each reply is the one that belongs to the
token on which the cursor stood, and at the end nothing changes it. -/
theorem runAll_start (source : Source) (calls : List Call) :
    let tokens := (start source).toList ++ [endOf source]
    let moves (calls : List Call) := calls.countP Call.moves
    let last := ((start source).runAll calls).2
    tokens[min (moves calls) (tokens.length - 1)]? = some last.current ∧
    last.toList = (start source).toList.drop (moves calls) ∧
    last.source = source ∧
    ((start source).runAll calls).1.length = calls.length ∧
    (∀ before call after, calls = before ++ call :: after →
      ∃ t reply, tokens[min (moves before) (tokens.length - 1)]? = some t ∧
        ((start source).runAll calls).1[before.length]? = some reply ∧
        Replies source t call reply) ∧
    (last.current.isEnd → ∀ more, (last.runAll more).2 = last) := by
  intro tokens moves last
  have hstart := atPlace_start source
  -- The cursor after some calls, as one that has only moved.
  have hcursor (calls : List Call) : ((start source).runAll calls).2 =
      advance^[moves calls] (start source) := hstart.runAll_cursor calls
  have hcurrent (calls : List Call) : tokens[min (moves calls) (tokens.length - 1)]? =
      some ((start source).runAll calls).2.current := by
    rw [hcursor, hstart.current_iterate]
    exact getElem?_min_length _ _ _
  have hsource (calls : List Call) : ((start source).runAll calls).2.source = source := by
    rw [hcursor, source_iterate_advance]
    rfl
  refine ⟨hcurrent calls, ?_, hsource calls, length_runAll _ _, ?_, ?_⟩
  · rw [show last = _ from hcursor calls]
    exact hstart.toList_iterate _
  · rintro before call after rfl
    refine ⟨_, _, hcurrent before, getElem?_runAll _ _ _ _, ?_⟩
    have hreply := replies_run ((start source).runAll before).2 call
    rwa [hsource before] at hreply
  · intro hend more
    have hplace : AtPlace source last := by
      rw [show last = _ from hcursor calls]
      exact hstart.iterate _
    rw [hplace.runAll_cursor, iterate_advance_of_isEnd hplace hend]

/-- The last blank of the text is behind its only token, and behind both is the end. -/
theorem runAll_start_pastEnd :
    let source : Source := ⟨none, "x "⟩
    let last := ((start source).runAll [.next, .advance, .number, .next]).2
    last.current = ⟨.endOfInput, "", 2⟩ ∧ last.toList = [] ∧
      ∀ more, (last.runAll more).2 = last := by
  intro source last
  have htokens : (start source).toList = [⟨.name, "x", 0⟩] := by
    rw [toList_start]
    decide +kernel
  have hsize : endOf source = ⟨.endOfInput, "", 2⟩ := by decide +kernel
  obtain ⟨hcurrent, hlist, -, -, -, hstays⟩ :=
    runAll_start source [.next, .advance, .number, .next]
  rw [htokens] at hcurrent hlist
  have hend : last.current = endOf source := (Option.some.inj hcurrent).symm
  exact ⟨hend.trans hsize, hlist, hstays (congrArg Token.isEnd hend)⟩

end Formula.Cursor
