import Formula.Proofs.Brackets
import Formula.Proofs.Viable
import Mathlib.Data.List.Induction

/-! What the state of the pass says about the tokens it has taken: the phase is read off the last
token, or the last two, and the frames are the parentheses that are still open. -/

namespace Formula

open Reader

namespace Track

/-- The moves of the pass. -/
inductive Step (t : Token) : Track → Track → Prop
  | operator {phase frames} : t.kind = .plus ∨ t.kind = .minus ∨ t.kind = .star ∨ t.kind = .slash →
      Step t ⟨phase, frames⟩ ⟨.operand, frames⟩
  | number {phase frames value} : t.kind = .number value →
      Step t ⟨phase, frames⟩ ⟨.operator none, frames⟩
  | name {phase frames} : t.kind = .name → Step t ⟨phase, frames⟩ ⟨.operator (some t), frames⟩
  | group {phase frames} : t.kind = .leftParen → (∀ name?, phase ≠ .operator name?) →
      Step t ⟨phase, frames⟩ ⟨.operand, ⟨t, none⟩ :: frames⟩
  | call {n frames} : t.kind = .leftParen →
      Step t ⟨.operator (some n), frames⟩ ⟨.argument n t, ⟨t, some n⟩ :: frames⟩
  | close {phase frame frames} : t.kind = .rightParen →
      Step t ⟨phase, frame :: frames⟩ ⟨.operator none, frames⟩
  | comma {phase frames} : t.kind = .comma → Step t ⟨phase, frames⟩ ⟨.operand, frames⟩

theorem Step.of_stepOperand {phase : Phase} {frames : List Frame} {t : Token} {s' : Track}
    (hphase : ∀ name?, phase ≠ .operator name?) (h : stepOperand frames t = some s') :
    Step t ⟨phase, frames⟩ s' := by
  unfold stepOperand at h
  cases hk : t.kind with
  | plus => simp only [hk] at h; cases h; exact .operator (.inl hk)
  | minus => simp only [hk] at h; cases h; exact .operator (.inr (.inl hk))
  | number value => simp only [hk] at h; cases h; exact .number hk
  | name => simp only [hk] at h; cases h; exact .name hk
  | leftParen => simp only [hk] at h; cases h; exact .group hk hphase
  | _ => simp [hk] at h

theorem Step.of_stepOperator {name? : Option Token} {frames : List Frame} {t : Token}
    {s' : Track} (h : stepOperator name? frames t = some s') :
    Step t ⟨.operator name?, frames⟩ s' := by
  unfold stepOperator at h
  cases hk : t.kind with
  | plus => simp only [hk] at h; cases h; exact .operator (.inl hk)
  | minus => simp only [hk] at h; cases h; exact .operator (.inr (.inl hk))
  | star => simp only [hk] at h; cases h; exact .operator (.inr (.inr (.inl hk)))
  | slash => simp only [hk] at h; cases h; exact .operator (.inr (.inr (.inr hk)))
  | leftParen =>
    simp only [hk] at h
    obtain ⟨n, rfl, rfl⟩ := Option.map_eq_some_iff.mp h
    exact .call hk
  | rightParen =>
    simp only [hk] at h
    cases frames with
    | nil => cases h
    | cons frame frames => cases h; exact .close hk
  | comma =>
    simp only [hk, nextArgument] at h
    split at h
    · cases h
      exact .comma hk
    · cases h
  | _ => simp [hk] at h

theorem Step.of_step {s s' : Track} {t : Token} (h : s.step t = some s') : Step t s s' := by
  obtain ⟨phase, frames⟩ := s
  cases phase with
  | operand => exact .of_stepOperand nofun h
  | argument n o => exact .of_stepOperand nofun h
  | operator name? => exact .of_stepOperator h

theorem steps_concat {s s' : Track} {ts : List Token} {t : Token}
    (h : steps s (ts ++ [t]) = some s') : ∃ s₁, steps s ts = some s₁ ∧ Step t s₁ s' := by
  rw [steps_append] at h
  obtain ⟨s₁, hs, h⟩ := Option.bind_eq_some_iff.mp h
  obtain ⟨s₂, hstep, h⟩ := Option.bind_eq_some_iff.mp h
  cases h
  exact ⟨s₁, hs, .of_step hstep⟩

end Track

/-- After the tokens an operand has to follow. -/
def WantsOperand (ts : List Token) : Prop :=
  ∀ t ∈ ts.getLast?, t.kind = .plus ∨ t.kind = .minus ∨ t.kind = .star ∨ t.kind = .slash ∨
    t.kind = .leftParen ∨ t.kind = .comma

def EndsOperand (ts : List Token) : Prop :=
  ∃ t ∈ ts.getLast?, (∃ value, t.kind = .number value) ∨ t.kind = .name ∨ t.kind = .rightParen

/-- The tokens end in the name `n` and the parenthesis `o` that opens its arguments. -/
def OpensCall (ts : List Token) (n o : Token) : Prop :=
  (∃ before, ts = before ++ [n, o]) ∧ n.kind = .name ∧ o.kind = .leftParen

theorem EndsOperand.not_wantsOperand {ts : List Token} (h : EndsOperand ts) :
    ¬ WantsOperand ts := by
  intro hw
  obtain ⟨t, ht, hk⟩ := h
  have := hw t ht
  rcases hk with ⟨value, hk⟩ | hk | hk <;> simp [hk] at this

theorem OpensCall.wantsOperand {ts : List Token} {n o : Token} (h : OpensCall ts n o) :
    WantsOperand ts := by
  obtain ⟨⟨before, rfl⟩, -, ho⟩ := h
  simp [WantsOperand, ho]

theorem OpensCall.concat {ts : List Token} {n o t : Token} (h : OpensCall (ts ++ [t]) n o) :
    t = o ∧ ∃ before, ts = before ++ [n] := by
  obtain ⟨⟨before, h⟩, -, -⟩ := h
  rw [show before ++ [n, o] = (before ++ [n]) ++ [o] by simp] at h
  obtain ⟨h, ht⟩ := List.append_inj' h rfl
  exact ⟨by simpa using ht, before, h⟩

theorem OpensCall.unique {ts : List Token} {n o m p : Token} (h : OpensCall ts n o)
    (h' : OpensCall ts m p) : n = m ∧ o = p := by
  obtain ⟨⟨before, rfl⟩, -, -⟩ := h
  obtain ⟨⟨before', h'⟩, -, -⟩ := h'
  have := List.append_inj' h' rfl
  simpa using this.2

namespace Track

/-- What the phase says about the tokens taken. -/
def PhaseOf (ts : List Token) : Phase → Prop
  | .operand => WantsOperand ts ∧ ∀ n o, ¬ OpensCall ts n o
  | .argument n o => OpensCall ts n o
  | .operator none => EndsOperand ts ∧ ∀ t ∈ ts.getLast?, t.kind ≠ .name
  | .operator (some n) => n ∈ ts.getLast? ∧ n.kind = .name

theorem Step.phaseOf {s s' : Track} {ts : List Token} {t : Token} (h : Step t s s')
    (hs : PhaseOf ts s.phase) : PhaseOf (ts ++ [t]) s'.phase := by
  cases h with
  | operator hk =>
    refine ⟨by simp [WantsOperand]; tauto, ?_⟩
    intro n o hc
    obtain ⟨rfl, -⟩ := hc.concat
    simp [hc.2.2] at hk
  | number hk => exact ⟨⟨t, by simp, .inl ⟨_, hk⟩⟩, by simp [hk]⟩
  | name hk => exact ⟨by simp, hk⟩
  | @group phase frames hk hp =>
    refine ⟨by simp [WantsOperand, hk], ?_⟩
    intro n o hc
    obtain ⟨-, before, rfl⟩ := hc.concat
    have hw : WantsOperand (before ++ [n]) := by
      cases phase with
      | operand => exact hs.1
      | argument n o => exact hs.wantsOperand
      | operator name? => exact absurd rfl (hp name?)
    simpa [hc.2.1] using hw n (by simp)
  | call hk =>
    obtain ⟨hn, hname⟩ := hs
    obtain ⟨before, rfl⟩ := List.getLast?_eq_some_iff.mp hn
    exact ⟨⟨before, by simp⟩, hname, hk⟩
  | close hk => exact ⟨⟨t, by simp, .inr (.inr hk)⟩, by simp [hk]⟩
  | comma hk =>
    refine ⟨by simp [WantsOperand, hk], ?_⟩
    intro n o hc
    obtain ⟨rfl, -⟩ := hc.concat
    simp [hc.2.2] at hk

theorem phaseOf_of_steps {ts : List Token} {s : Track} (h : steps start ts = some s) :
    PhaseOf ts s.phase := by
  induction ts using List.reverseRecOn generalizing s with
  | nil =>
    cases h
    exact ⟨by simp [WantsOperand], fun n o hc => by simpa using hc.1⟩
  | append_singleton ts t ih =>
    obtain ⟨s₁, hs, hstep⟩ := steps_concat h
    exact hstep.phaseOf (ih hs)

theorem Step.opened {s s' : Track} {ts : List Token} {t : Token} (h : Step t s s')
    (hs : Opened (s.frames.map Frame.opening) ts) :
    Opened (s'.frames.map Frame.opening) (ts ++ [t]) := by
  cases h with
  | operator hk =>
    refine hs.append (.singleton ?_)
    rcases hk with hk | hk | hk | hk <;> rw [hk] <;> rfl
  | number hk => exact hs.append (.singleton (by rw [hk]; rfl))
  | name hk => exact hs.append (.singleton (by rw [hk]; rfl))
  | group hk _ => exact .cons hs hk .nil
  | call hk => exact .cons hs hk .nil
  | close hk => exact hs.close hk
  | comma hk => exact hs.append (.singleton (by rw [hk]; rfl))

theorem opened_of_steps {ts : List Token} {s : Track} (h : steps start ts = some s) :
    Opened (s.frames.map Frame.opening) ts := by
  induction ts using List.reverseRecOn generalizing s with
  | nil =>
    cases h
    exact .nil .nil
  | append_singleton ts t ih =>
    obtain ⟨s₁, hs, hstep⟩ := steps_concat h
    exact hstep.opened (ih hs)

end Track

end Formula
