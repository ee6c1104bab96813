import Formula.Proofs.Offsets
import Formula.Proofs.Splicing

/-! Texts with the same tokens. If the tokens of two texts are the same one after the other, except
for the places where they stand, then both texts are read as the same tree, or both are refused for
the same reason at corresponding tokens. -/

namespace Formula

open Reader (Expected Failure startsWithClose)

variable {R : Token → Token → Prop}

inductive Phase.Alike (R : Token → Token → Prop) : Phase → Phase → Prop
  | operand : Alike R .operand .operand
  | argument {n n' o o'} : R n n' → R o o' → Alike R (.argument n o) (.argument n' o')
  | operator {name? name'?} : Option.Rel R name? name'? →
      Alike R (.operator name?) (.operator name'?)

structure Frame.Alike (R : Token → Token → Prop) (frame frame' : Frame) : Prop where
  opening : R frame.opening frame'.opening
  name? : Option.Rel R frame.name? frame'.name?

structure Track.Alike (R : Token → Token → Prop) (s s' : Track) : Prop where
  phase : s.phase.Alike R s'.phase
  frames : List.Forall₂ (Frame.Alike R) s.frames s'.frames

inductive Reader.Expected.Alike (R : Token → Token → Prop) : Expected → Expected → Prop
  | operand : Alike R .operand .operand
  | argument {n n' o o'} : R n n' → R o o' → Alike R (.argument n o) (.argument n' o')
  | close {o o'} : R o o' → Alike R (.close o) (.close o')
  | finish : Alike R .finish .finish

structure Reader.Failure.Alike (R : Token → Token → Prop) (f f' : Failure) : Prop where
  expected : f.expected.Alike R f'.expected
  rest : List.Forall₂ R f.rest f'.rest

section Simulation

variable (hR : ∀ {t u}, R t u → t.Same u)

namespace Track

variable {s s' : Track} {t u : Token} {ts us : List Token} {frames frames' : List Frame}

theorem Alike.accepts (h : s.Alike R s') : s.accepts = s'.accepts := by
  obtain ⟨phase, frames⟩ := s
  obtain ⟨phase', frames'⟩ := s'
  obtain ⟨hphase, hframes⟩ := h
  cases hphase with
  | operand => rfl
  | argument => rfl
  | operator => cases hframes <;> rfl

include hR

theorem stepOperand_alike (hframes : List.Forall₂ (Frame.Alike R) frames frames') (ht : R t u) :
    Option.Rel (Track.Alike R) (stepOperand frames t) (stepOperand frames' u) := by
  unfold stepOperand
  rw [(hR ht).kind]
  cases t.kind with
  | plus => exact .some ⟨.operand, hframes⟩
  | minus => exact .some ⟨.operand, hframes⟩
  | number value => exact .some ⟨.operator .none, hframes⟩
  | name => exact .some ⟨.operator (.some ht), hframes⟩
  | leftParen => exact .some ⟨.operand, .cons ⟨ht, .none⟩ hframes⟩
  | _ => exact .none

theorem stepOperator_alike {name? name'? : Option Token} (hname : Option.Rel R name? name'?)
    (hframes : List.Forall₂ (Frame.Alike R) frames frames') (ht : R t u) :
    Option.Rel (Track.Alike R) (stepOperator name? frames t) (stepOperator name'? frames' u) := by
  unfold stepOperator
  rw [(hR ht).kind]
  cases t.kind with
  | plus => exact .some ⟨.operand, hframes⟩
  | minus => exact .some ⟨.operand, hframes⟩
  | star => exact .some ⟨.operand, hframes⟩
  | slash => exact .some ⟨.operand, hframes⟩
  | leftParen =>
    cases hname with
    | none => exact .none
    | some hn => exact .some ⟨.argument hn ht, .cons ⟨ht, .some hn⟩ hframes⟩
  | rightParen =>
    cases hframes with
    | nil => exact .none
    | cons _ houter => exact .some ⟨.operator .none, houter⟩
  | comma =>
    cases hframes with
    | nil => exact .none
    | @cons frame frame' outer outer' hframe houter =>
      obtain ⟨opening, name?⟩ := frame
      obtain ⟨opening', name'?⟩ := frame'
      obtain ⟨hopening, hname⟩ := hframe
      cases hname with
      | none => exact .none
      | some hn => exact .some ⟨.operand, .cons ⟨hopening, .some hn⟩ houter⟩
  | _ => exact .none

theorem Alike.step (h : s.Alike R s') (ht : R t u) :
    Option.Rel (Track.Alike R) (s.step t) (s'.step u) := by
  obtain ⟨phase, frames⟩ := s
  obtain ⟨phase', frames'⟩ := s'
  obtain ⟨hphase, hframes⟩ := h
  cases hphase with
  | operand => exact stepOperand_alike hR hframes ht
  | argument => exact stepOperand_alike hR hframes ht
  | operator hname => exact stepOperator_alike hR hname hframes ht

theorem Alike.expected (h : s.Alike R s') (hts : List.Forall₂ R ts us) :
    (s.expected ts).Alike R (s'.expected us) := by
  obtain ⟨phase, frames⟩ := s
  obtain ⟨phase', frames'⟩ := s'
  obtain ⟨hphase, hframes⟩ := h
  have hclose : startsWithClose us = startsWithClose ts := by
    cases hts with
    | nil => rfl
    | cons ht _ => simp only [startsWithClose, (hR ht).kind]
  cases hphase with
  | operand => exact .operand
  | argument hn ho =>
    simp only [Track.expected, hclose]
    split
    · exact .argument hn ho
    · exact .operand
  | operator hname =>
    cases hframes with
    | nil => exact .finish
    | cons hframe _ => exact .close hframe.opening

/-- Passes over corresponding tokens come to the end together, or stop at corresponding tokens. -/
theorem Alike.run (h : s.Alike R s') (hts : List.Forall₂ R ts us) :
    (run s ts = .ok () ∧ run s' us = .ok ()) ∨
      ∃ f f', run s ts = .error f ∧ run s' us = .error f' ∧ f.Alike R f' := by
  induction hts generalizing s s' with
  | nil =>
    rw [Track.run, Track.run, h.accepts]
    split
    · exact .inl ⟨rfl, rfl⟩
    · exact .inr ⟨_, _, rfl, rfl, h.expected hR .nil, .nil⟩
  | @cons t u ts us ht hts ih =>
    have hstep := h.step hR ht
    cases hs : s.step t with
    | none =>
      rw [hs] at hstep
      cases hs' : s'.step u with
      | some r' =>
        rw [hs'] at hstep
        cases hstep
      | none =>
        rw [run_cons_of_stuck hs, run_cons_of_stuck hs']
        exact .inr ⟨_, _, rfl, rfl, h.expected hR (.cons ht hts), .cons ht hts⟩
    | some r =>
      rw [hs] at hstep
      cases hs' : s'.step u with
      | none =>
        rw [hs'] at hstep
        cases hstep
      | some r' =>
        rw [hs'] at hstep
        cases hstep with
        | some hr =>
          rw [run_cons_of_step hs, run_cons_of_step hs']
          exact ih hr

end Track

include hR in
/-- Corresponding tokens are read as the same tree, or refused at corresponding tokens. -/
theorem Reader.parse_alike {ts us : List Token} (hts : List.Forall₂ R ts us) :
    (∃ t, parse ts = .ok t ∧ parse us = .ok t) ∨
      ∃ f f', parse ts = .error f ∧ parse us = .error f' ∧ f.Alike R f' := by
  have hsame : List.Forall₂ Token.Same ts us := hts.imp fun _ _ h => hR h
  have hstart : Track.start.Alike R Track.start := ⟨.operand, .nil⟩
  cases hparse : parse ts with
  | ok t => exact .inl ⟨t, rfl, parse_eq_ok_iff.mpr ((parse_eq_ok_iff.mp hparse).of_same hsame)⟩
  | error f =>
    have hrun := Track.run_start ts
    rw [hparse] at hrun
    rcases hstart.run hR hts with ⟨hok, -⟩ | ⟨g, g', hg, hg', hfailure⟩
    · rw [hok] at hrun
      cases hrun
    · obtain rfl : g = f := Except.error.inj (hg.symm.trans hrun)
      have hrun' := Track.run_start us
      rw [hg'] at hrun'
      cases hparse' : parse us with
      | ok t =>
        rw [hparse'] at hrun'
        cases hrun'
      | error f' =>
        rw [hparse'] at hrun'
        cases hrun'
        exact .inr ⟨g, g', rfl, rfl, hfailure⟩

end Simulation

open Text (Source)
open Token (ofText endOf withEnd Same)

/-- The tokens stand at the same place in the lists of the tokens of two texts; the ends of the
texts count as tokens. -/
def Token.Matches (source other : Source) (t u : Token) : Prop :=
  (t, u) ∈ (withEnd source).zip (withEnd other)

/-- The errors are of one kind, name the same texts and mark matching tokens. -/
inductive SyntaxError.Matches (source other : Source) : SyntaxError → SyntaxError → Prop
  | unexpectedToken {t u} : Token.Matches source other t u →
      Matches source other ⟨source, t.span, .unexpectedToken t.literal⟩
        ⟨other, u.span, .unexpectedToken t.literal⟩
  | unexpectedEnd : Matches source other ⟨source, (endOf source).span, .unexpectedEnd⟩
      ⟨other, (endOf other).span, .unexpectedEnd⟩
  | missingClose {o o' t u} : Token.Matches source other o o' → Token.Matches source other t u →
      Matches source other ⟨source, t.span, .missingClose o.span⟩
        ⟨other, u.span, .missingClose o'.span⟩
  | trailingInput {t u} : Token.Matches source other t u →
      Matches source other ⟨source, t.span, .trailingInput t.literal⟩
        ⟨other, u.span, .trailingInput t.literal⟩
  /-- The arguments reach from the parenthesis that opens them to the one that closes them. -/
  | emptyArguments {name o o' c c'} : Token.Matches source other o o' →
      Token.Matches source other c c' →
      Matches source other ⟨source, ⟨o.offset, c.stop - o.offset⟩, .emptyArguments name⟩
        ⟨other, ⟨o'.offset, c'.stop - o'.offset⟩, .emptyArguments name⟩

section Matches

variable {source other : Source}

theorem forall₂_same_withEnd (h : List.Forall₂ Same (ofText source.text) (ofText other.text)) :
    List.Forall₂ Same (withEnd source) (withEnd other) :=
  List.rel_append h (.cons ⟨rfl, rfl⟩ .nil)

theorem Token.Matches.same (h : List.Forall₂ Same (ofText source.text) (ofText other.text))
    {t u : Token} (htu : Token.Matches source other t u) : t.Same u :=
  (List.forall₂_iff_zip.mp (forall₂_same_withEnd h)).2 htu

theorem Token.matches_end (h : List.Forall₂ Same (ofText source.text) (ofText other.text)) :
    Token.Matches source other (endOf source) (endOf other) := by
  rw [Token.Matches, withEnd, withEnd, List.zip_append h.length_eq]
  exact List.mem_append_right _ (List.mem_singleton_self _)

theorem forall₂_matches (h : List.Forall₂ Same (ofText source.text) (ofText other.text)) :
    List.Forall₂ (Token.Matches source other) (ofText source.text) (ofText other.text) := by
  apply List.forall₂_iff_zip.mpr
  refine ⟨h.length_eq, fun htu => ?_⟩
  rw [Token.Matches, withEnd, withEnd, List.zip_append h.length_eq]
  exact List.mem_append_left _ htu

variable (h : List.Forall₂ Same (ofText source.text) (ofText other.text))

include h

theorem matches_headD {rest rest' : List Token}
    (hrest : List.Forall₂ (Token.Matches source other) rest rest') :
    Token.Matches source other (rest.headD (endOf source)) (rest'.headD (endOf other)) := by
  cases hrest with
  | nil => exact Token.matches_end h
  | cons htu _ => exact htu

theorem SyntaxError.matches_ofFailure {f f' : Failure}
    (hf : f.Alike (Token.Matches source other) f') :
    SyntaxError.Matches source other (ofFailure source f) (ofFailure other f') := by
  obtain ⟨expected, rest⟩ := f
  obtain ⟨expected', rest'⟩ := f'
  obtain ⟨hexpected, hrest⟩ := hf
  have hplace (source : Source) (rest : List Token) :
      place source rest = (rest.headD (endOf source)).span := by cases rest <;> rfl
  have hhere := matches_headD h hrest
  cases hexpected with
  | operand =>
    cases hrest with
    | nil => exact .unexpectedEnd
    | cons htu _ =>
      simp only [ofFailure, (htu.same h).literal]
      exact .unexpectedToken htu
  | argument hn ho =>
    simp only [ofFailure, hplace, (hn.same h).literal]
    exact .emptyArguments ho hhere
  | close ho =>
    simp only [ofFailure, hplace]
    exact .missingClose ho hhere
  | finish =>
    cases hrest with
    | nil => exact .unexpectedEnd
    | cons htu _ =>
      simp only [ofFailure, (htu.same h).literal]
      exact .trailingInput htu

theorem parseSource_same :
    (∃ t, parseSource source = .ok t ∧ parseSource other = .ok t) ∨
      ∃ e e', parseSource source = .error e ∧ parseSource other = .error e' ∧
        SyntaxError.Matches source other e e' := by
  rcases Reader.parse_alike (fun htu => Token.Matches.same h htu) (forall₂_matches h) with
    ⟨t, ht, ht'⟩ | ⟨f, f', hf, hf', hfailure⟩
  · left
    exact ⟨t, by rw [parseSource, ht]; rfl, by rw [parseSource, ht']; rfl⟩
  · right
    refine ⟨_, _, by rw [parseSource, hf]; rfl, by rw [parseSource, hf']; rfl, ?_⟩
    exact SyntaxError.matches_ofFailure h hfailure

end Matches

end Formula
