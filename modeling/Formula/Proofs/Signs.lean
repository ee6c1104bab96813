import Formula.Proofs.Doubles
import Formula.Number.Written

/-! Doubles with the other sign. Negation of a number changes its first bit and no other; so it
leads back when it is done twice, and in the text it is a sign in front. -/

namespace Formula.Number

open Float.Model (UnpackedFloat)
open Float.Model.Format (binary64)
open Float.Model.UnpackedFloat

theorem toNat_packComponents (s : Sign) (e : BitVec 11) (m : BitVec 52) :
    (packComponents binary64 s e m).toNat =
      s.toBitVec.toNat * 2 ^ 63 + (e.toNat * 2 ^ 52 + m.toNat) := by
  rw [packComponents, toNat_append, toNat_append]
  omega

theorem exists_pack_neg {a : UnpackedFloat} (h : ¬ a.isNaN) : ∃ s e m,
    UnpackedFloat.pack binary64 a = packComponents binary64 s e m ∧
      UnpackedFloat.pack binary64 a.neg = packComponents binary64 (-s) e m := by
  cases a with
  | notANumber => exact absurd rfl h
  | infinity s => exact ⟨s, _, _, rfl, rfl⟩
  | zero s => exact ⟨s, _, _, rfl, rfl⟩
  | finite s m e hm =>
    refine ⟨s, ?_⟩
    simp only [UnpackedFloat.pack, UnpackedFloat.neg]
    split
    · exact ⟨_, _, rfl, rfl⟩
    · split
      · exact ⟨_, _, rfl, rfl⟩
      · exact ⟨_, _, rfl, rfl⟩

theorem toNat_toBitVec_neg (s : Sign) : (-s).toBitVec.toNat = 1 - s.toBitVec.toNat := by
  cases s <;> rfl

/-- Negation of a number changes the first of its bits and no other. -/
theorem toNat_toBits_neg {x : Float} (h : ¬ x.isNaN) : ∃ s rest : Nat, s ≤ 1 ∧ rest < 2 ^ 63 ∧
    x.toBits.toNat = s * 2 ^ 63 + rest ∧ (-x).toBits.toNat = (1 - s) * 2 ^ 63 + rest := by
  obtain ⟨s, e, m, hx, hneg⟩ := exists_pack_neg (a := x.toModel.unpack) h
  have hbits : UnpackedFloat.pack binary64 x.toModel.unpack = x.toBits.toBitVec :=
    pack_unpack x.toModel.valid
  refine ⟨s.toBitVec.toNat, e.toNat * 2 ^ 52 + m.toNat, ?_, ?_, ?_, ?_⟩
  · exact Nat.le_of_lt_succ s.toBitVec.isLt
  · have he : e.toNat < 2 ^ 11 := e.isLt
    have hm : m.toNat < 2 ^ 52 := m.isLt
    omega
  · rw [← toNat_packComponents, ← hx, hbits]
    rfl
  · rw [← toNat_toBitVec_neg, ← toNat_packComponents, ← hneg]
    rfl

theorem magnitude_neg {x : Float} (h : ¬ x.isNaN) : magnitude (-x) = magnitude x := by
  obtain ⟨s, rest, hs, hrest, hx, hneg⟩ := toNat_toBits_neg h
  rw [magnitude, magnitude, hx, hneg]
  omega

theorem isNegative_neg {x : Float} (h : ¬ x.isNaN) : isNegative (-x) = !isNegative x := by
  obtain ⟨s, rest, hs, hrest, hx, hneg⟩ := toNat_toBits_neg h
  rw [isNegative, isNegative, hx, hneg, ← decide_not, decide_eq_decide]
  omega

theorem isNaN_neg {x : Float} (h : ¬ x.isNaN) : ¬ (-x).isNaN := by
  rw [isNaN_iff] at h ⊢
  rwa [magnitude_neg (by rwa [isNaN_iff])]

theorem eq_of_toBits {x y : Float} (h : x.toBits.toNat = y.toBits.toNat) : x = y := by
  rw [← ofBits_toNat x, h, ofBits_toNat]

theorem neg_neg_of_not_isNaN {x : Float} (h : ¬ x.isNaN) : -(-x) = x := by
  obtain ⟨_, _, _, _, hx, hneg⟩ := toNat_toBits_neg h
  obtain ⟨_, _, _, _, hneg', hback⟩ := toNat_toBits_neg (isNaN_neg h)
  apply eq_of_toBits
  omega

theorem not_isNegative_infinity : ¬ isNegative infinity := by decide +kernel

/-- A number with a sign is written as a sign in front of the number without it. -/
theorem toList_plain_of_isNegative {x : Float} (hnan : ¬ x.isNaN) (hneg : isNegative x) :
    (plain x).toList = '-' :: (plain (-x)).toList := by
  have hpos : isNegative (-x) = false := by rw [isNegative_neg hnan, hneg]; rfl
  simp only [plain, write, hnan, isNaN_neg hnan, hneg, hpos, magnitude_neg hnan]
  simp

end Formula.Number
