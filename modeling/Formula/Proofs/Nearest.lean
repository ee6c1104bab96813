import Formula.Number.Written
import Mathlib.Algebra.Order.Field.Power
import Mathlib.Data.Int.Log
import Mathlib.Data.Rat.Floor

/-! The decimals that stand for a double read back as that double: its exact value does, since
nothing is rounded there, and the shortest decimal does by the way it is found. -/

namespace Formula.Number

theorem zpow_eq_div (b : ℚ) (e : Int) : b ^ e = b ^ e.toNat / b ^ (-e).toNat := by
  obtain ⟨k, rfl | rfl⟩ := e.eq_nat_or_neg
  · simp
  · simp

theorem zpow_le_div_iff {n d : Nat} (hd : 0 < d) (e : Int) :
    (2 : ℚ) ^ e ≤ n / d ↔ d * Nat.pow 2 e.toNat ≤ n * Nat.pow 2 (-e).toNat := by
  have hd : (0 : ℚ) < d := by exact_mod_cast hd
  rw [zpow_eq_div, div_le_div_iff₀ (by positivity) hd, mul_comm]
  exact_mod_cast Iff.rfl

theorem zpow_log2_le {n : Nat} (hn : 0 < n) : (2 : ℚ) ^ (n.log2 : Int) ≤ n := by
  exact_mod_cast Nat.log2_self_le (Nat.ne_of_gt hn)

theorem lt_zpow_log2 (n : Nat) : (n : ℚ) < 2 ^ (n.log2 + 1 : Int) := by
  exact_mod_cast Nat.lt_log2_self

theorem log_bounds {q : ℚ} {a b : Int} (hlow : 2 ^ a ≤ q) (hhigh : q < 2 ^ b) :
    a ≤ Int.log 2 q ∧ Int.log 2 q < b := by
  have hq : 0 < q := lt_of_lt_of_le (by positivity) hlow
  constructor
  · exact (Int.zpow_le_iff_le_log (by norm_num) hq).mp (by simpa using hlow)
  · exact (Int.lt_zpow_iff_log_lt (by norm_num) hq).mp (by simpa using hhigh)

theorem binade_eq_log {n d : Nat} (hn : 0 < n) (hd : 0 < d) :
    binade n d = Int.log 2 ((n : ℚ) / d) := by
  have hd' : (0 : ℚ) < d := by exact_mod_cast hd
  have hq : (0 : ℚ) < n / d := div_pos (by exact_mod_cast hn) hd'
  have hlow : (2 : ℚ) ^ ((n.log2 : Int) - d.log2 - 1) ≤ n / d := by
    rw [le_div_iff₀ hd']
    calc (2 : ℚ) ^ ((n.log2 : Int) - d.log2 - 1) * d
        ≤ 2 ^ ((n.log2 : Int) - d.log2 - 1) * 2 ^ (d.log2 + 1 : Int) := by
          gcongr
          exact (lt_zpow_log2 d).le
      _ = 2 ^ (n.log2 : Int) := by
          rw [← zpow_add₀ (by norm_num)]
          congr 1
          omega
      _ ≤ n := zpow_log2_le hn
  have hhigh : (n : ℚ) / d < 2 ^ ((n.log2 : Int) - d.log2 + 1) := by
    rw [div_lt_iff₀ hd']
    calc (n : ℚ) < 2 ^ (n.log2 + 1 : Int) := lt_zpow_log2 n
      _ = 2 ^ ((n.log2 : Int) - d.log2 + 1) * 2 ^ (d.log2 : Int) := by
          rw [← zpow_add₀ (by norm_num)]
          congr 1
          omega
      _ ≤ 2 ^ ((n.log2 : Int) - d.log2 + 1) * d := by
          gcongr
          exact zpow_log2_le hd
  have hbounds := log_bounds hlow hhigh
  have hmid := zpow_le_div_iff (n := n) hd ((n.log2 : Int) - d.log2)
  -- The difference of the logarithms is right or one too large; the comparison tells which.
  unfold binade
  simp only
  split
  · rename_i h
    have := (log_bounds (hmid.mpr h) hhigh).1
    omega
  · rename_i h
    have := (log_bounds hlow (lt_of_not_ge (mt hmid.mp h))).2
    omega

theorem roundQuotient_mul (m : Nat) {d : Nat} (hd : 0 < d) : roundQuotient (m * d) d = m := by
  simp [roundQuotient, Nat.mul_div_cancel _ hd, hd]

/-- A significand and a binary exponent as they are kept in a double. -/
structure Canonical (m : Nat) (e : Int) : Prop where
  pos : 0 < m
  lt : m < 2 * binadeSize
  least : -1074 ≤ e
  full : e = -1074 ∨ binadeSize ≤ m

/-- A quotient that has the value of a double is not rounded. -/
theorem Canonical.nearestBits_eq {n d m : Nat} {e : Int} (hc : Canonical m e) (hd : 0 < d)
    (h : (n : ℚ) / d = m * 2 ^ e) :
    nearestBits n d = min ((e + 1074).toNat * binadeSize + m) infinityBits := by
  have hd' : (0 : ℚ) < d := by exact_mod_cast hd
  have hm : (0 : ℚ) < m := by exact_mod_cast hc.pos
  have hn : 0 < n := by
    have : (0 : ℚ) < n / d := by rw [h]; positivity
    exact_mod_cast (div_pos_iff_of_pos_right hd').mp this
  have hbin : binade n d = m.log2 + e := by
    rw [binade_eq_log hn hd, h]
    have hlow : (2 : ℚ) ^ (m.log2 + e : Int) ≤ m * 2 ^ e := by
      rw [zpow_add₀ (by norm_num)]
      gcongr
      exact zpow_log2_le hc.pos
    have hhigh : (m : ℚ) * 2 ^ e < 2 ^ (m.log2 + 1 + e : Int) := by
      rw [zpow_add₀ (by norm_num)]
      gcongr
      exact lt_zpow_log2 m
    have := log_bounds hlow hhigh
    omega
  have hunit : max (binade n d - 52) (-1074) = e := by
    have hlog : m.log2 < 53 := (Nat.log2_lt (Nat.ne_of_gt hc.pos)).mpr hc.lt
    have hleast := hc.least
    rcases hc.full with rfl | hfull
    · omega
    · have : 52 ≤ m.log2 := (Nat.le_log2 (Nat.ne_of_gt hc.pos)).mpr hfull
      omega
  have hsteps : n * Nat.pow 2 (-e).toNat = m * (d * Nat.pow 2 e.toNat) := by
    rw [zpow_eq_div, ← mul_div_assoc, div_eq_div_iff hd'.ne' (by positivity)] at h
    have h : n * 2 ^ (-e).toNat = m * 2 ^ e.toNat * d := by exact_mod_cast h
    rw [Nat.pow_eq, Nat.pow_eq, h]
    ring
  have hpos : 0 < d * Nat.pow 2 e.toNat := Nat.mul_pos hd (Nat.pow_pos (by decide))
  simp only [nearestBits, Nat.ne_of_gt hn, if_false, hunit, hsteps, roundQuotient_mul m hpos]

theorem canonical_significand {bits : Nat} (h : 0 < bits) :
    Canonical (significand bits).1 (significand bits).2 := by
  unfold significand
  split
  · exact ⟨h, by simp only [binadeSize] at *; omega, Int.le_refl _, .inl rfl⟩
  · refine ⟨?_, ?_, ?_, .inr (Nat.le_add_left _ _)⟩ <;> simp only [binadeSize] at * <;> omega

theorem bits_of_significand (bits : Nat) :
    ((significand bits).2 + 1074).toNat * binadeSize + (significand bits).1 = bits := by
  unfold significand
  split
  · simp
  · simp only [binadeSize] at *
    omega

namespace Decimal

theorem numerator_div_denominator (x : Decimal) :
    (x.numerator : ℚ) / x.denominator = x.coefficient * 10 ^ x.exponent := by
  rw [zpow_eq_div, numerator, denominator, Nat.pow_eq, Nat.pow_eq]
  push_cast
  ring

theorem denominator_pos (x : Decimal) : 0 < x.denominator := Nat.pow_pos (by decide)

/-- The exact value of a double is that of its significand and its exponent. -/
theorem exact_value (bits : Nat) :
    ((exact bits).coefficient : ℚ) * 10 ^ (exact bits).exponent =
      (significand bits).1 * 2 ^ (significand bits).2 := by
  unfold exact
  generalize significand bits = s
  obtain ⟨m, e⟩ := s
  simp only [Nat.pow_eq]
  split
  · rename_i he
    obtain ⟨k, rfl⟩ := Int.eq_ofNat_of_zero_le he
    simp
  · rename_i he
    obtain ⟨k, rfl⟩ : ∃ k : Nat, e = -k := ⟨(-e).toNat, by omega⟩
    have hten : (10 : ℚ) ^ k = 5 ^ k * 2 ^ k := by rw [← mul_pow]; norm_num
    simp only [neg_neg, Int.toNat_natCast, zpow_neg, zpow_natCast, hten]
    push_cast
    field_simp

theorem two_mul_le_log2 {m k : Nat} (hm : 0 < m) : 2 * k ≤ (m * Nat.pow 5 k).log2 := by
  have hpos : m * 5 ^ k ≠ 0 := by positivity
  refine (Nat.le_log2 hpos).mpr ?_
  calc 2 ^ (2 * k) = 4 ^ k := by rw [pow_mul]; rfl
    _ ≤ 5 ^ k := Nat.pow_le_pow_left (by decide) k
    _ ≤ m * 5 ^ k := Nat.le_mul_of_pos_left _ hm

/-- A number that is neither zero, nor too large, nor too small is rounded. -/
theorem bits_eq_nearestBits {x : Decimal} (hne : x.coefficient ≠ 0) (hhigh : x.exponent ≤ 400)
    (hlow : -3 * x.exponent ≤ x.coefficient.log2 + 1100) :
    x.bits = nearestBits x.numerator x.denominator := by
  unfold bits
  rw [if_neg hne, if_neg (Int.not_lt.mpr hhigh), if_neg (Int.not_lt.mpr hlow)]

theorem bits_exact_eq_nearestBits {bits : Nat} (h : 0 < bits) :
    (exact bits).bits = nearestBits (exact bits).numerator (exact bits).denominator := by
  have hc := canonical_significand h
  unfold exact
  generalize significand bits = s at hc
  obtain ⟨m, e⟩ := s
  have hleast : -1074 ≤ e := hc.least
  simp only
  split
  · have hpos : 0 < m * Nat.pow 2 e.toNat := Nat.mul_pos hc.pos (Nat.pow_pos (by decide))
    apply bits_eq_nearestBits hpos.ne'
    · simp
    · simp only
      omega
  · have hpos : 0 < m * Nat.pow 5 (-e).toNat := Nat.mul_pos hc.pos (Nat.pow_pos (by decide))
    have hlog : 2 * (-e).toNat ≤ (m * Nat.pow 5 (-e).toNat).log2 := two_mul_le_log2 hc.pos
    apply bits_eq_nearestBits hpos.ne'
    · simp only
      omega
    · simp only
      omega

theorem bits_exact {bits : Nat} (h : bits < infinityBits) : (exact bits).bits = bits := by
  rcases Nat.eq_zero_or_pos bits with rfl | hpos
  · have hzero : (exact 0).coefficient = 0 := Nat.zero_mul _
    exact if_pos hzero
  · have hvalue := (numerator_div_denominator (exact bits)).trans (exact_value bits)
    rw [bits_exact_eq_nearestBits hpos, (canonical_significand hpos).nearestBits_eq
      (denominator_pos _) hvalue, bits_of_significand, Nat.min_eq_left (Nat.le_of_lt h)]

/-- The shortest decimal of a double reads back as the double. -/
theorem bits_shortest {bits : Nat} (h : bits < infinityBits) : (shortest bits).bits = bits := by
  unfold shortest
  simp only
  generalize hf : List.findSome? _ _ = found
  cases found with
  | none => exact bits_exact h
  | some y =>
    obtain ⟨k, -, hk⟩ := List.exists_of_findSome?_eq_some hf
    simpa using List.find?_some hk

theorem bits_le_infinityBits (x : Decimal) : x.bits ≤ infinityBits := by
  unfold bits
  split_ifs
  · exact Nat.zero_le _
  · exact Nat.le_refl _
  · exact Nat.zero_le _
  · unfold nearestBits
    split
    · exact Nat.zero_le _
    · exact Nat.min_le_right _ _

end Decimal

end Formula.Number
