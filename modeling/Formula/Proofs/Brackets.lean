import Formula.Token

/-! Which parentheses of a stretch of tokens belong together, by counting alone. -/

namespace Formula

def Token.Kind.weight : Token.Kind → Int
  | .leftParen => 1
  | .rightParen => -1
  | _ => 0

/-- How many more parentheses the tokens open than they close. -/
def depth : List Token → Int
  | [] => 0
  | t :: ts => t.kind.weight + depth ts

structure Balanced (ts : List Token) : Prop where
  never_negative : ∀ n, 0 ≤ depth (ts.take n)
  total : depth ts = 0

/-- A parenthesis that opens right in front of the tokens is closed by one of them: by the first
that has a balanced stretch before it. -/
def Closed (after : List Token) : Prop :=
  ∃ inner c rest, after = inner ++ c :: rest ∧ c.kind = .rightParen ∧ Balanced inner

/-- Among the tokens `o` opens, in front of the tokens `after`, and is not closed. -/
structure Unclosed (ts : List Token) (o : Token) (after : List Token) : Prop where
  split : ∃ before, ts = before ++ o :: after
  opens : o.kind = .leftParen
  not_closed : ¬ Closed after

theorem depth_append (ts us : List Token) : depth (ts ++ us) = depth ts + depth us := by
  induction ts with
  | nil => simp [depth]
  | cons t ts ih => rw [List.cons_append, depth, depth, ih, Int.add_assoc]

theorem Balanced.nil : Balanced [] := ⟨by simp [depth], rfl⟩

theorem Balanced.append {ts us : List Token} (ht : Balanced ts) (hu : Balanced us) :
    Balanced (ts ++ us) where
  never_negative n := by
    have := ht.never_negative n
    have := hu.never_negative (n - ts.length)
    rw [List.take_append, depth_append]
    omega
  total := by rw [depth_append, ht.total, hu.total]; rfl

theorem Balanced.singleton {t : Token} (h : t.kind.weight = 0) : Balanced [t] where
  never_negative n := by cases n <;> simp [depth, h]
  total := by simp [depth, h]

theorem Balanced.group {ts : List Token} {o c : Token} (ho : o.kind = .leftParen)
    (h : Balanced ts) (hc : c.kind = .rightParen) : Balanced (o :: (ts ++ [c])) where
  never_negative n := by
    cases n with
    | zero => simp [depth]
    | succ n =>
      have := h.never_negative n
      rw [List.take_succ_cons, List.take_append, depth, depth_append, ho]
      cases n - ts.length <;> simp [depth, hc, Token.Kind.weight] <;> omega
  total := by simp [depth, depth_append, ho, hc, h.total, Token.Kind.weight]

theorem Balanced.not_closed {ts : List Token} (h : Balanced ts) : ¬ Closed ts := by
  rintro ⟨inner, c, rest, rfl, hc, hi⟩
  have := h.never_negative (inner.length + 1)
  rw [List.take_append, List.take_of_length_le (Nat.le_succ _), depth_append, hi.total] at this
  simp [depth, hc, Token.Kind.weight] at this

/-- Tokens that close more than is open, `n` parentheses in all, close the last of these by a
token of their own. -/
theorem exists_close {ts : List Token} {n : Int} (hn : 0 ≤ n) (h : n + depth ts < 0) :
    ∃ inner c rest, ts = inner ++ c :: rest ∧ c.kind = .rightParen ∧ n + depth inner = 0 ∧
      ∀ k, 0 ≤ n + depth (inner.take k) := by
  induction ts generalizing n with
  | nil => simp only [depth] at h; omega
  | cons t ts ih =>
    rw [depth] at h
    by_cases ht : n + t.kind.weight < 0
    · have hc : t.kind = .rightParen := by
        cases hk : t.kind <;> simp_all [Token.Kind.weight] <;> omega
      have h0 : n = 0 := by
        simp only [hc, Token.Kind.weight] at ht
        omega
      exact ⟨[], t, ts, rfl, hc, by simp [h0, depth], by simp [hn, depth]⟩
    · obtain ⟨inner, c, rest, rfl, hc, htotal, hk⟩ := ih (Int.not_lt.mp ht) (by omega)
      refine ⟨t :: inner, c, rest, rfl, hc, by rw [depth]; omega, ?_⟩
      intro k
      rcases k with _ | k
      · simpa [depth] using hn
      · have := hk k
        rw [List.take_succ_cons, depth]
        omega

theorem closed_of_depth_neg {ts : List Token} (h : depth ts < 0) : Closed ts := by
  obtain ⟨inner, c, rest, hts, hc, htotal, hk⟩ := exists_close (Int.le_refl 0) (by simpa using h)
  exact ⟨inner, c, rest, hts, hc, ⟨by simpa using hk, by simpa using htotal⟩⟩

theorem Balanced.not_unclosed {ts after : List Token} {o : Token} (h : Balanced ts) :
    ¬ Unclosed ts o after := by
  rintro ⟨⟨before, rfl⟩, ho, hnot⟩
  refine hnot (closed_of_depth_neg ?_)
  have htotal := h.total
  have hbefore := h.never_negative before.length
  rw [List.take_left] at hbefore
  rw [depth_append, depth, ho] at htotal
  simp only [Token.Kind.weight] at htotal
  omega

/-- The parentheses that the tokens leave open, the innermost first: each has a balanced stretch
behind it, up to the next. -/
inductive Opened : List Token → List Token → Prop
  | nil {ts} : Balanced ts → Opened [] ts
  | cons {o os before after} : Opened os before → o.kind = .leftParen → Balanced after →
      Opened (o :: os) (before ++ o :: after)

theorem Opened.append {os ts us : List Token} (h : Opened os ts) (hu : Balanced us) :
    Opened os (ts ++ us) := by
  cases h with
  | nil ht => exact .nil (ht.append hu)
  | cons hb ho ha =>
    rw [List.append_assoc, List.cons_append]
    exact .cons hb ho (ha.append hu)

theorem Opened.close {o c : Token} {os ts : List Token} (h : Opened (o :: os) ts)
    (hc : c.kind = .rightParen) : Opened os (ts ++ [c]) := by
  cases h with
  | cons hb ho ha =>
    rw [List.append_assoc, List.cons_append]
    exact hb.append (.group ho ha hc)

theorem Opened.not_unclosed {ts after : List Token} {o : Token} (h : Opened [] ts) :
    ¬ Unclosed ts o after := by
  cases h with
  | nil ht => exact ht.not_unclosed

theorem Opened.exists_unclosed {o : Token} {os ts : List Token} (h : Opened (o :: os) ts) :
    ∃ after, Unclosed ts o after ∧ ∀ o' after', ¬ Unclosed after o' after' := by
  cases h with
  | cons hb ho ha =>
    exact ⟨_, ⟨⟨_, rfl⟩, ho, ha.not_closed⟩, fun _ _ => ha.not_unclosed⟩

theorem Unclosed.unique {ts after after' : List Token} {o o' : Token} (h : Unclosed ts o after)
    (hin : ∀ p rest, ¬ Unclosed after p rest) (h' : Unclosed ts o' after')
    (hin' : ∀ p rest, ¬ Unclosed after' p rest) : o = o' := by
  obtain ⟨before, rfl⟩ := h.split
  obtain ⟨before', hts⟩ := h'.split
  rcases List.append_eq_append_iff.mp hts with ⟨mid, hb, ha⟩ | ⟨mid, hb, ha⟩
  · cases mid with
    | nil => simp_all
    | cons p mid =>
      rw [List.cons_append, List.cons.injEq] at ha
      exact absurd ⟨⟨mid, ha.2⟩, h'.opens, h'.not_closed⟩ (hin o' after')
  · cases mid with
    | nil => simp_all
    | cons p mid =>
      rw [List.cons_append, List.cons.injEq] at ha
      exact absurd ⟨⟨mid, ha.2⟩, h.opens, h.not_closed⟩ (hin' o after)

end Formula
