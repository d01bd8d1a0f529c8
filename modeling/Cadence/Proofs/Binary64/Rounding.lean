import Cadence.Proofs.Binary64.Whole

/-!
# Rounding keeps the order

Of two quotients the greater one is nearest to a magnitude at least as great (`Magnitude.nearest_mono`). So rounding an
exact worth to that of a binary64 number (`Binary64.roundedUnits`) does not turn the order of two worths around
(`Binary64.roundedUnits_mono`), and it leaves alone what a binary64 number is worth (`Binary64.roundedUnits_units`).
-/

namespace Cadence

theorem roundHalfEven_mono {m n den : Nat} (h : m ≤ n) : roundHalfEven m den ≤ roundHalfEven n den := by
  have hquotient : m / den ≤ n / den := Nat.div_le_div_right h
  have hm := Nat.div_add_mod m den
  have hn := Nat.div_add_mod n den
  by_cases hsame : m / den = n / den
  · -- the remainders are ordered as the numbers
    have hrest : m % den ≤ n % den := by
      rw [hsame] at hm
      omega
    unfold roundHalfEven
    rw [hsame]
    split <;> split <;> omega
  · have hup : roundHalfEven m den ≤ m / den + 1 := by
      unfold roundHalfEven
      split <;> omega
    have hdown := Magnitude.div_le_roundHalfEven n den
    omega

namespace Magnitude

theorem nearestRank_mono {m n den : Nat} (hden : 0 < den) (h : m ≤ n) : nearestRank m den ≤ nearestRank n den := by
  have hlog : (m / den).log2 ≤ (n / den).log2 := by
    by_cases hzero : m / den = 0
    · simp [hzero]
    · exact log2_le_log2 hzero (Nat.div_le_div_right h)
  have hmost := @lt_of_doublings m den hden
  have hleast := @binade_le_of_halved n den
  show (_ - 52) * binade + roundHalfEven m (den * Nat.pow 2 (_ - 52))
    ≤ (_ - 52) * binade + roundHalfEven n (den * Nat.pow 2 (_ - 52))
  generalize (m / den).log2 = c at hlog hmost
  generalize (n / den).log2 = d at hlog hleast
  rcases Nat.lt_or_eq_of_le (Nat.sub_le_sub_right hlog 52) with hlt | heq
  · -- the digits of `m` fill two binades at most, and those of `n` one at least
    have hdigits : roundHalfEven m (den * Nat.pow 2 (c - 52)) ≤ 2 * binade :=
      roundHalfEven_le (Nat.mul_pos hden (Nat.two_pow_pos _)) (Nat.le_of_lt hmost)
    have hdigits' : binade ≤ roundHalfEven n (den * Nat.pow 2 (d - 52)) := hleast (by omega)
    have hstep : (c - 52 + 1) * binade ≤ (d - 52) * binade := Nat.mul_le_mul_right _ hlt
    rw [Nat.add_mul] at hstep
    omega
  · rw [heq]
    exact Nat.add_le_add_left (roundHalfEven_mono h) _

/-- Of two quotients the greater one is nearest to a magnitude at least as great. -/
theorem nearest_mono {m n den : Nat} (hden : 0 < den) (h : m ≤ n) : (nearest m den).units ≤ (nearest n den).units := by
  refine units_mono ?_
  have := nearestRank_mono hden h
  show min (nearestRank m den) top ≤ min (nearestRank n den) top
  omega

end Magnitude

namespace Binary64

/-- The worth of the binary64 number nearest to a worth, both in units. -/
def roundedUnits (k : Int) : Int :=
  (ofUnits (k < 0) k.natAbs 1).units

theorem roundedUnits_of_neg {k : Int} (h : k < 0) : roundedUnits k = -(Magnitude.nearest k.natAbs 1).units := by
  rw [roundedUnits, ofUnits, decide_eq_true h]
  rfl

theorem roundedUnits_of_nonneg {k : Int} (h : 0 ≤ k) : roundedUnits k = (Magnitude.nearest k.natAbs 1).units := by
  rw [roundedUnits, ofUnits, decide_eq_false (by omega)]
  rfl

/-- Rounding does not turn the order around. -/
theorem roundedUnits_mono {j k : Int} (h : j ≤ k) : roundedUnits j ≤ roundedUnits k := by
  by_cases hk : k < 0
  · have hle := Magnitude.nearest_mono Nat.one_pos (show k.natAbs ≤ j.natAbs by omega)
    rw [roundedUnits_of_neg hk, roundedUnits_of_neg (by omega)]
    omega
  · rw [roundedUnits_of_nonneg (show 0 ≤ k by omega)]
    by_cases hj : j < 0
    · rw [roundedUnits_of_neg hj]
      omega
    · have hle := Magnitude.nearest_mono Nat.one_pos (show j.natAbs ≤ k.natAbs by omega)
      rw [roundedUnits_of_nonneg (by omega)]
      omega

/-- What a binary64 number is worth, is not changed by rounding. -/
theorem roundedUnits_units (x : Binary64) : roundedUnits x.units = x.units := by
  have hround : ∀ m : Magnitude, roundedUnits m.units = m.units := by
    intro m
    rw [roundedUnits_of_nonneg (by omega), Int.natAbs_natCast, Magnitude.nearest_units]
  rcases x with _ | ⟨_ | _, m⟩
  · decide +kernel
  · exact hround m
  · show roundedUnits (-m.units) = -m.units
    by_cases hzero : m.units = 0
    · rw [hzero]
      decide +kernel
    · rw [roundedUnits_of_neg (by omega), Int.natAbs_neg, Int.natAbs_natCast, Magnitude.nearest_units]

/-- An integer becomes a number that is worth what its worth is rounded to. -/
theorem units_ofInt (i : Int) : (ofInt i).units = roundedUnits (i * unitsPerOne) := by
  rw [ofInt, roundedUnits, Int.natAbs_mul, Int.natAbs_natCast]
  have hpos := unitsPerOne_pos
  generalize unitsPerOne = one at hpos
  have hsign : i * one < 0 ↔ i < 0 := by
    constructor
    · intro h
      refine Classical.byContradiction fun hneg => ?_
      have := Int.mul_nonneg (Int.not_lt.1 hneg) (Int.natCast_nonneg one)
      omega
    · exact fun h => Int.mul_neg_of_neg_of_pos h (by omega)
  simp only [hsign]

end Binary64

end Cadence
