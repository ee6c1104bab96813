import Formula.Context.Standard
import Formula.Operator
import Formula.Proofs.DoubleOrder

/-! Clamping to bounds. On the line of numbers the larger and the smaller of two doubles are the
maximum and the minimum of their positions, where what is not a number gives way to the other one;
so the laws of clamping are laws of positions. -/

namespace Formula.Number

/-- Takes of two numbers one whose position is the one that `op` takes, and the other operand of
what is not a number. Which one of two zeros is taken is left open. -/
def Picks (op : Int → Int → Int) (f : Float → Float → Float) : Prop :=
  ∀ a b, position? (f a b) = (position? a).merge op (position? b)

theorem picks_of_numbers {op : Int → Int → Int} {f : Float → Float → Float}
    (hleft : ∀ a b, a.isNaN → f a b = b) (hright : ∀ a b, ¬ a.isNaN → b.isNaN → f a b = a)
    (hnumbers : ∀ a b i j, position? a = some i → position? b = some j →
      position? (f a b) = some (op i j)) : Picks op f := by
  intro a b
  by_cases ha : a.isNaN
  · rw [hleft a b ha, position?_of_isNaN ha, Option.merge_none_left]
  by_cases hb : b.isNaN
  · rw [hright a b ha hb, position?_of_isNaN hb, Option.merge_none_right]
  obtain ⟨i, hi⟩ := exists_position? ha
  obtain ⟨j, hj⟩ := exists_position? hb
  rw [hnumbers a b i j hi hj, hi, hj, Option.merge_some_some]

theorem not_isNaN_of_position? {x : Float} {i : Int} (h : position? x = some i) : ¬ x.isNaN := by
  rw [← position?_eq_none_iff, h]
  exact Option.some_ne_none i

theorem picks_larger : Picks max larger := by
  refine picks_of_numbers (fun a b ha => if_pos ha) (fun a b ha hb => ?_) fun a b i j hi hj => ?_
  · rw [larger, if_neg ha, if_pos hb]
  · have hlt : a < b ↔ i < j := by simp [lt_iff, hi, hj]
    rw [larger, if_neg (not_isNaN_of_position? hi), if_neg (not_isNaN_of_position? hj)]
    split
    · rw [hj, max_eq_right (Int.le_of_lt (hlt.mp ‹_›))]
    · rw [hi, max_eq_left (Int.not_lt.mp (mt hlt.mpr ‹_›))]

theorem picks_smaller : Picks min smaller := by
  refine picks_of_numbers (fun a b ha => if_pos ha) (fun a b ha hb => ?_) fun a b i j hi hj => ?_
  · rw [smaller, if_neg ha, if_pos hb]
  · have hlt : b < a ↔ j < i := by simp [lt_iff, hi, hj]
    rw [smaller, if_neg (not_isNaN_of_position? hi), if_neg (not_isNaN_of_position? hj)]
    split
    · rw [hj, min_eq_right (Int.le_of_lt (hlt.mp ‹_›))]
    · rw [hi, min_eq_left (Int.not_lt.mp (mt hlt.mpr ‹_›))]

theorem position?_clamp (v low high : Float) : position? (clamp v low high) =
    ((position? v).merge max (position? low)).merge min (position? high) := by
  rw [clamp, picks_smaller, picks_larger]

theorem isNaN_clamp (v low high : Float) :
    (clamp v low high).isNaN ↔ v.isNaN ∧ low.isNaN ∧ high.isNaN := by
  simp only [← position?_eq_none_iff, position?_clamp, Option.merge_eq_none_iff, and_assoc]

theorem clamp_mem {low high : Float} (h : low ≤ high) (v : Float) :
    low ≤ clamp v low high ∧ clamp v low high ≤ high := by
  obtain ⟨i, j, hi, hj, hij⟩ := le_iff.mp h
  simp only [le_iff, position?_clamp, hi, hj]
  cases position? v with
  | none => simp [hij]
  | some k => simp [hij]

theorem clamp_of_mem {v low high : Float} (hlow : low ≤ v) (hhigh : v ≤ high) :
    (clamp v low high == v) = true := by
  obtain ⟨i, k, hi, hk, hik⟩ := le_iff.mp hlow
  obtain ⟨k', j, hk', hj, hkj⟩ := le_iff.mp hhigh
  obtain rfl : k = k' := Option.some.inj (hk.symm.trans hk')
  simp [beq_iff, position?_clamp, hi, hj, hk, hik, hkj]

theorem clamp_of_crossed {low high : Float} (h : high < low) (v : Float) :
    (clamp v low high == high) = true := by
  obtain ⟨j, i, hj, hi, hji⟩ := lt_iff.mp h
  simp only [beq_iff, position?_clamp, hi, hj]
  cases position? v with
  | none => simp; omega
  | some k => simp; omega

theorem clamp_clamp (v low high : Float) :
    SameValue (clamp (clamp v low high) low high) (clamp v low high) := by
  simp only [sameValue_iff, position?_clamp]
  rcases position? v with _ | i <;> rcases position? low with _ | j <;>
    rcases position? high with _ | k <;> simp
  omega

theorem clamp_mono {v w : Float} (h : v ≤ w) (low high : Float) :
    clamp v low high ≤ clamp w low high := by
  obtain ⟨i, j, hi, hj, hij⟩ := le_iff.mp h
  simp only [le_iff, position?_clamp, hi, hj]
  cases position? low <;> cases position? high <;> simp <;> omega

/-- It makes no difference which one of two zeros counts as the larger, or as the smaller. -/
theorem clamp_eq_of_picks {f g : Float → Float → Float} (hf : Picks max f) (hg : Picks min g)
    (v low high : Float) : SameValue (g (f v low) high) (clamp v low high) := by
  rw [sameValue_iff, position?_clamp, hg, hf]

/-- Clamping gives a number unless there is none among its operands. Between bounds that are not
crossed it ends up, and it keeps what lies there; of crossed bounds it gives the upper one. Done
twice it does no more than once, and it is monotone, also if a bound is not a number. All of this
holds whichever zero is picked of two, and for the operator as for the function of that name. -/
theorem clamp_laws :
    (∀ v low high, (clamp v low high).isNaN ↔ v.isNaN ∧ low.isNaN ∧ high.isNaN) ∧
    (∀ v low high, low ≤ high → low ≤ clamp v low high ∧ clamp v low high ≤ high) ∧
    (∀ v low high, low ≤ v → v ≤ high → (clamp v low high == v) = true) ∧
    (∀ v low high, high < low → (clamp v low high == high) = true) ∧
    (∀ v low high, SameValue (clamp (clamp v low high) low high) (clamp v low high)) ∧
    (∀ v w low high, v ≤ w → clamp v low high ≤ clamp w low high) ∧
    (∀ f g, Picks max f → Picks min g → ∀ v low high,
      SameValue (g (f v low) high) (clamp v low high)) ∧
    (∀ v low high, TernaryOp.clamp.apply v low high = clamp v low high ∧
      ∀ (σ : Type) (state : σ), Standard.context.resolve "clamp" [v, low, high] state =
        .ok (TernaryOp.clamp.apply v low high) state) := by
  refine ⟨isNaN_clamp, fun v low high h => clamp_mem h v, fun v low high => clamp_of_mem,
    fun v low high h => clamp_of_crossed h v, clamp_clamp,
    fun v w low high h => clamp_mono h low high, fun f g hf hg => clamp_eq_of_picks hf hg, ?_⟩
  exact fun v low high => ⟨rfl, fun σ state => rfl⟩

/-- What is not a number is raised to the lower bound, a lower bound that is not a number raises
nothing, and of two zeros the one in front may be picked as the larger or the one behind it. -/
theorem clamp_laws_zeros :
    ((-1 : Float) ≤ 2 ∧ -1 ≤ clamp nan (-1) 2 ∧ clamp nan (-1) 2 ≤ 2) ∧
    ((-0 : Float) ≤ 0 ∧ (0 : Float) ≤ 2 ∧ (clamp 0 (-0) 2 == 0) = true) ∧
    ((2 : Float) < 3 ∧ (clamp nan 3 2 == 2) = true) ∧
    (-infinity ≤ 1 ∧ clamp (-infinity) nan 0 ≤ clamp 1 nan 0) ∧
    (Picks max (fun a b => larger b a) ∧ Picks min smaller ∧
      SameValue (smaller (larger 0 (-0)) 2) (clamp (-0) 0 2)) := by
  obtain ⟨-, hmem, hkeep, hcrossed, -, hmono, hpicks, -⟩ := clamp_laws
  have hbounds : (-1 : Float) ≤ 2 := by decide +kernel
  have hlow : (-0 : Float) ≤ 0 := by decide +kernel
  have hhigh : (0 : Float) ≤ 2 := by decide +kernel
  have hcross : (2 : Float) < 3 := by decide +kernel
  have hle : -infinity ≤ 1 := by decide +kernel
  have hflipped : Picks max (fun a b => larger b a) := fun a b => by
    rw [picks_larger]
    exact (Option.commutative_merge max).comm _ _
  exact ⟨⟨hbounds, hmem nan (-1) 2 hbounds⟩, ⟨hlow, hhigh, hkeep 0 (-0) 2 hlow hhigh⟩,
    ⟨hcross, hcrossed nan 3 2 hcross⟩, ⟨hle, hmono (-infinity) 1 nan 0 hle⟩,
    hflipped, picks_smaller, hpicks _ _ hflipped picks_smaller (-0) 0 2⟩

end Formula.Number
