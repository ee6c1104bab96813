import Formula.Proofs.Doubles
import Formula.Number.Written

/-! The order of doubles. Those that are numbers stand on a line by their bits: a magnitude, counted
to the left if the sign is set. Comparisons of doubles are comparisons of their positions on this
line, where the two zeros share one position, and what is not a number has none. -/

namespace Formula.Number

open Float.Model (UnpackedFloat)
open Float.Model.Format (binary64)
open Float.Model.UnpackedFloat

/-- The position of a double on the line of numbers. -/
def position? (x : Float) : Option Int :=
  if x.isNaN then none else some (if isNegative x then -magnitude x else magnitude x)

theorem significand_lt {a b : Nat} (h : a < b) :
    (significand a).2 < (significand b).2 ∨
      (significand a).2 = (significand b).2 ∧ (significand a).1 < (significand b).1 := by
  unfold significand binadeSize
  split <;> split <;> simp <;> omega

theorem compare_significand (a b : Nat) :
    (compare (significand a).2 (significand b).2).then
      (compare (significand a).1 (significand b).1) = compare (a : Int) b := by
  rcases Nat.lt_trichotomy a b with h | rfl | h
  · rw [compare_lt_iff_lt.mpr (Int.ofNat_lt.mpr h)]
    rcases significand_lt h with he | ⟨he, hm⟩
    · rw [compare_lt_iff_lt.mpr he]
      rfl
    · rw [compare_eq_iff_eq.mpr he, compare_lt_iff_lt.mpr hm]
      rfl
  · simp
  · rw [compare_gt_iff_gt.mpr (Int.ofNat_lt.mpr h)]
    rcases significand_lt h with he | ⟨he, hm⟩
    · rw [compare_gt_iff_gt.mpr he]
      rfl
    · rw [compare_eq_iff_eq.mpr he.symm, compare_gt_iff_gt.mpr hm]
      rfl

theorem pos_of_significand {a m : Nat} {e : Int} (h : significand a = (m, e)) (hm : 0 < m) :
    0 < a := by
  rcases Nat.eq_zero_or_pos a with rfl | ha
  · cases h
    exact absurd hm (by decide)
  · exact ha

inductive Parts (s : Sign) : Nat → UnpackedFloat → Prop
  | zero : Parts s 0 (.zero s)
  | finite {a m : Nat} {e : Int} (hm : 0 < m) : significand a = (m, e) → a < infinityBits →
      Parts s a (.finite s m e hm)
  | infinity : Parts s infinityBits (.infinity s)

theorem parts_unpack {b : BitVec 64} (h : ¬ (UnpackedFloat.unpack binary64 b).isNaN) :
    Parts (Sign.ofBitVec (@unpackSign binary64 b)) (b.toNat % 2 ^ 63)
      (UnpackedFloat.unpack binary64 b) := by
  have he := unpackExponent_toNat b
  have hm := unpackMantissa_toNat b
  have hbias : binary64.exponentBias = 1023 := rfl
  have helt := (@unpackExponent binary64 b).isLt
  have hmlt := (@unpackMantissa binary64 b).isLt
  unfold UnpackedFloat.unpack at h ⊢
  simp only at h ⊢ helt hmlt
  split
  · rename_i hones
    rw [if_pos hones] at h
    rw [hones, show (-1#11).toNat = 2 ^ 11 - 1 from rfl] at he
    split
    · rename_i hzero
      rw [hzero, show (0#52).toNat = 0 from rfl] at hm
      rw [show b.toNat % 2 ^ 63 = infinityBits by rw [infinityBits]; omega]
      exact .infinity
    · rename_i hzero
      exact absurd (by rw [if_neg hzero]; rfl) h
  · rename_i hones
    have hfinite : (@unpackExponent binary64 b).toNat ≠ 2 ^ 11 - 1 := fun h =>
      hones (BitVec.eq_of_toNat_eq (h.trans rfl))
    split
    · rename_i hzero
      rw [hzero, show (0#11).toNat = 0 from rfl] at he
      split
      · rename_i hnone
        rw [hnone, show (0#52).toNat = 0 from rfl] at hm
        rw [show b.toNat % 2 ^ 63 = 0 by omega]
        exact .zero
      · refine .finite _ ?_ (by rw [infinityBits]; omega)
        rw [significand, binadeSize, if_pos (by omega), hzero]
        exact Prod.ext (by simp only [hm]; omega) rfl
    · rename_i hzero
      have hnormal : (@unpackExponent binary64 b).toNat ≠ 0 := fun h =>
        hzero (BitVec.eq_of_toNat_eq (h.trans rfl))
      have hvalue : (1#1 ++ @unpackMantissa binary64 b).toNat =
          2 ^ 52 + (@unpackMantissa binary64 b).toNat := by
        rw [toNat_append]
        rfl
      refine .finite _ ?_ (by rw [infinityBits]; omega)
      rw [significand, binadeSize, if_neg (by omega), hvalue]
      exact Prod.ext (by simp only [hm]; omega) (by simp only [hbias, he]; omega)

/-- Finite doubles are compared by sign, then by exponent, then by significand. -/
theorem compare_finite {s r : Sign} {a b m n : Nat} {e f : Int} (hm : 0 < m) (hn : 0 < n)
    (ha : significand a = (m, e)) (hb : significand b = (n, f)) :
    UnpackedFloat.compare (.finite s m e hm) (.finite r n f hn) =
      some (compare (s.apply a) (r.apply b)) := by
  have hpa := pos_of_significand ha hm
  have hpb := pos_of_significand hb hn
  have hc := compare_significand a b
  rw [ha, hb] at hc
  cases s with
  | negative =>
    cases r with
    | negative =>
      rw [UnpackedFloat.compare, hc, Int.compare_swap]
      simp [Sign.apply, Int.compare_eq_ite_lt]
    | positive => grind [UnpackedFloat.compare, Sign.apply, Int.compare_eq_lt]
  | positive =>
    cases r with
    | negative => grind [UnpackedFloat.compare, Sign.apply, Int.compare_eq_gt]
    | positive =>
      rw [UnpackedFloat.compare, hc]
      rfl

theorem Parts.compare_eq {s r : Sign} {a b : Nat} {u v : UnpackedFloat} (hu : Parts s a u)
    (hv : Parts r b v) : u.compare v = some (compare (s.apply a) (r.apply b)) := by
  have hinf : 0 < infinityBits := by decide
  cases hu with
  | finite hm ha hlt =>
    have hpos := pos_of_significand ha hm
    cases hv with
    | finite hn hb _ => exact compare_finite hm hn ha hb
    | zero | infinity =>
      cases s <;> cases r <;> grind [UnpackedFloat.compare, Sign.apply, Int.compare_eq_ite_lt]
  | zero | infinity =>
    cases hv with
    | finite hm hb hlt =>
      have hpos := pos_of_significand hb hm
      cases s <;> cases r <;> grind [UnpackedFloat.compare, Sign.apply, Int.compare_eq_ite_lt]
    | zero | infinity => cases s <;> cases r <;> decide

theorem apply_ofBitVec (b : BitVec 64) (a : Nat) :
    (Sign.ofBitVec (@unpackSign binary64 b)).apply a =
      if 2 ^ 63 ≤ b.toNat then -(a : Int) else a := by
  have hs := unpackSign_toNat b
  have hlt := b.isLt
  unfold Sign.ofBitVec
  split
  · rename_i hzero
    rw [hzero, show (0#1).toNat = 0 from rfl] at hs
    rw [if_neg (by omega)]
    rfl
  · rename_i hone
    have hne : (@unpackSign binary64 b).toNat ≠ 0 := fun h =>
      hone (BitVec.eq_of_toNat_eq (h.trans rfl))
    rw [if_pos (by omega)]
    rfl

theorem position?_of_isNaN {x : Float} (h : x.isNaN) : position? x = none := if_pos h

theorem position?_eq_none_iff {x : Float} : position? x = none ↔ x.isNaN := by
  simp [position?]

theorem exists_position? {x : Float} (h : ¬ x.isNaN) : ∃ i, position? x = some i :=
  ⟨_, if_neg h⟩

theorem exists_parts {x : Float} (h : ¬ x.isNaN) : ∃ s,
    Parts s (magnitude x) x.toModel.unpack ∧ position? x = some (s.apply (magnitude x)) := by
  refine ⟨_, parts_unpack h, ?_⟩
  rw [apply_ofBitVec, position?, if_neg h]
  simp only [isNegative, decide_eq_true_eq]
  rfl

theorem compare_notANumber (u : UnpackedFloat) : u.compare .notANumber = none := by
  cases u with
  | infinity s => cases s <;> rfl
  | notANumber | zero s | finite s m e hm => rfl

theorem unpack_of_isNaN {x : Float} (h : x.isNaN) : x.toModel.unpack = .notANumber := by
  rw [eq_nan_of_isNaN h]
  rfl

/-- Doubles are compared as their positions are. -/
theorem compare_unpack (x y : Float) : x.toModel.unpack.compare y.toModel.unpack =
    (position? x).bind fun i => (position? y).map fun j => compare i j := by
  by_cases hx : x.isNaN
  · rw [unpack_of_isNaN hx, position?_of_isNaN hx]
    rfl
  by_cases hy : y.isNaN
  · rw [unpack_of_isNaN hy, position?_of_isNaN hy, compare_notANumber]
    cases position? x <;> rfl
  obtain ⟨s, hu, hi⟩ := exists_parts hx
  obtain ⟨r, hv, hj⟩ := exists_parts hy
  rw [hu.compare_eq hv, hi, hj]
  rfl

theorem lt_iff {x y : Float} :
    x < y ↔ ∃ i j, position? x = some i ∧ position? y = some j ∧ i < j := by
  have hlt : x < y ↔ (x.toModel.unpack.compare y.toModel.unpack == some .lt) = true :=
    decide_eq_true_iff
  rw [hlt, compare_unpack]
  cases position? x <;> cases position? y <;> simp [Int.compare_eq_lt]

theorem le_iff {x y : Float} :
    x ≤ y ↔ ∃ i j, position? x = some i ∧ position? y = some j ∧ i ≤ j := by
  have hle : x ≤ y ↔ (x.toModel.unpack.compare y.toModel.unpack).any (·.isLE) = true :=
    decide_eq_true_iff
  rw [hle, compare_unpack]
  cases position? x <;> cases position? y <;> simp [Int.isLE_compare]

theorem beq_iff {x y : Float} :
    (x == y) = true ↔ ∃ i, position? x = some i ∧ position? y = some i := by
  have hbeq : (x == y) = (x.toModel.unpack.compare y.toModel.unpack == some .eq) := rfl
  rw [hbeq, compare_unpack]
  rcases position? x with _ | i
  · simp
  · rcases position? y with _ | j
    · simp
    · simpa [Int.compare_eq_eq] using eq_comm

/-- Equal numbers, or both no numbers. -/
def SameValue (x y : Float) : Prop := (x == y) = true ∨ x.isNaN ∧ y.isNaN

theorem sameValue_iff {x y : Float} : SameValue x y ↔ position? x = position? y := by
  rw [SameValue, beq_iff, ← position?_eq_none_iff, ← position?_eq_none_iff]
  rcases position? x with _ | i
  · simp [eq_comm]
  · simp [eq_comm]

end Formula.Number
