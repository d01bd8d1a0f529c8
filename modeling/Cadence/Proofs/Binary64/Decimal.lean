import Cadence.Proofs.Binary64.Order

/-!
# Decimals

A decimal is read as the magnitude nearest to its exact worth (`Magnitude.ofDecimal_eq_nearest`): the powers of ten
that are not computed make no difference. So it does not matter how a decimal is split into digits and an exponent;
zeros can be moved from one to the other (`Magnitude.ofDecimal_mul_pow`).
-/

namespace Cadence.Magnitude

/-- The nearest magnitude depends on the quotient alone, however it is written. -/
theorem nearest_congr {num den num' den' : Nat} (hden : 0 < den) (hden' : 0 < den')
    (h : num * den' = num' * den) : nearest num den = nearest num' den' := by
  rw [← nearest_mul_mul hden', h, Nat.mul_comm den den']
  exact nearest_mul_mul hden

/-- Less than half a unit is nearest to zero. -/
theorem nearest_eq_zero {num den : Nat} (h : 2 * num < den) : nearest num den = zero := by
  have hdiv : num / den = 0 := Nat.div_eq_of_lt (by omega)
  have hmod : num % den = num := Nat.mod_eq_of_lt (by omega)
  have hrank : nearestRank num den = 0 := by
    simp only [nearestRank, hdiv, Nat.log2_zero, Nat.zero_sub, Nat.zero_mul, Nat.zero_add, Nat.pow_eq, Nat.pow_zero,
      Nat.mul_one, roundHalfEven, hmod, if_pos (Or.inl h)]
  simp only [nearest, hrank, Nat.zero_min]
  rfl

/-- From `2 ^ 2099` units on everything is nearest to infinity. -/
theorem nearest_eq_infinite {num log : Nat} (hlog : 2099 ≤ log) (h : Nat.pow 2 log ≤ num) :
    nearest num 1 = infinite := by
  have hpos : 0 < num := Nat.lt_of_lt_of_le (Nat.two_pow_pos log) h
  have hle : log ≤ num.log2 := (Nat.le_log2 (Nat.ne_of_gt hpos)).2 h
  have hrank : top ≤ nearestRank num 1 := by
    unfold nearestRank
    rw [Nat.div_one]
    calc top = 2047 * binade := rfl
      _ ≤ (num.log2 - 52) * binade := Nat.mul_le_mul_right _ (by omega)
      _ ≤ _ := Nat.le_add_right _ _
  simp only [nearest, Nat.min_eq_right hrank]
  rfl

private theorem pow_two_le_pow_ten (n : Nat) : Nat.pow 2 (3 * n) ≤ Nat.pow 10 n := by
  have h : Nat.pow 2 (3 * n) = Nat.pow 8 n := Nat.pow_mul 2 3 n
  rw [h]
  exact Nat.pow_le_pow_left (by decide) n

private theorem pow_add_unitPlaces (n : Nat) : Nat.pow 2 (n + unitPlaces) = Nat.pow 2 n * unitsPerOne := by
  unfold unitsPerOne
  generalize unitPlaces = places
  exact Nat.pow_add 2 n places

private theorem pow_ten_pos (n : Nat) : 0 < Nat.pow 10 n :=
  Nat.pow_pos (by decide)

/-- A decimal of more than 400 places before its point is nearest to infinity. -/
private theorem nearest_of_large {digits places : Nat} (hdigits : digits ≠ 0) (h : 400 < places) :
    nearest (digits * Nat.pow 10 places * unitsPerOne) 1 = infinite := by
  have hlog : 2099 ≤ 3 * places + unitPlaces := by
    unfold unitPlaces
    omega
  refine nearest_eq_infinite hlog ?_
  calc Nat.pow 2 (3 * places + unitPlaces)
    _ = Nat.pow 2 (3 * places) * unitsPerOne := pow_add_unitPlaces _
    _ ≤ Nat.pow 10 places * unitsPerOne := Nat.mul_le_mul_right _ (pow_two_le_pow_ten _)
    _ ≤ digits * Nat.pow 10 places * unitsPerOne :=
        Nat.mul_le_mul_right _ (Nat.le_mul_of_pos_left _ (Nat.pos_of_ne_zero hdigits))

/-- A decimal of too few digits for the places behind its point is nearest to zero. -/
private theorem nearest_of_small {digits places : Nat} (h : digits.log2 + 1100 < 3 * places) :
    nearest (digits * unitsPerOne) (Nat.pow 10 places) = zero := by
  have hdigits : digits < Nat.pow 2 (digits.log2 + 1) := Nat.lt_log2_self
  apply nearest_eq_zero
  calc 2 * (digits * unitsPerOne) = digits * (2 * unitsPerOne) := Nat.mul_left_comm _ _ _
    _ < Nat.pow 2 (digits.log2 + 1) * (2 * unitsPerOne) :=
        Nat.mul_lt_mul_of_pos_right hdigits (Nat.mul_pos (by decide) unitsPerOne_pos)
    _ = Nat.pow 2 (digits.log2 + 1 + 1) * unitsPerOne := by
        rw [← Nat.mul_assoc]
        rfl
    _ = Nat.pow 2 (digits.log2 + 1 + 1 + unitPlaces) := (pow_add_unitPlaces _).symm
    _ ≤ Nat.pow 2 (3 * places) := Nat.pow_le_pow_right (by decide) (by unfold unitPlaces; omega)
    _ ≤ Nat.pow 10 places := pow_two_le_pow_ten _

/-- A decimal is read as the magnitude nearest to its exact worth. -/
theorem ofDecimal_eq_nearest (digits : Nat) (exponent : Int) :
    ofDecimal digits exponent
      = nearest (digits * Nat.pow 10 exponent.toNat * unitsPerOne) (Nat.pow 10 (-exponent).toNat) := by
  have hone : digits * Nat.pow 10 0 = digits := Nat.mul_one digits
  by_cases hzero : digits = 0
  · rw [ofDecimal, if_pos hzero, hzero, Nat.zero_mul, Nat.zero_mul]
    exact (nearest_eq_zero (pow_ten_pos _)).symm
  by_cases hlarge : 400 < exponent
  · have hnoden : (-exponent).toNat = 0 := by omega
    rw [ofDecimal, if_neg hzero, if_pos hlarge, hnoden]
    exact (nearest_of_large hzero (by omega)).symm
  by_cases hsmall : (digits.log2 : Int) + 3 * exponent < -1100
  · have hnonum : exponent.toNat = 0 := by omega
    rw [ofDecimal, if_neg hzero, if_neg hlarge, if_pos hsmall, hnonum, hone]
    exact (nearest_of_small (by omega)).symm
  -- in between, the worth is rounded as it is
  rw [ofDecimal, if_neg hzero, if_neg hlarge, if_neg hsmall]
  by_cases hsign : 0 ≤ exponent
  · have hnoden : (-exponent).toNat = 0 := by omega
    rw [if_pos hsign, hnoden]
  · have hnonum : exponent.toNat = 0 := by omega
    rw [if_neg hsign, hnonum, hone]

@[simp] theorem ofDecimal_zero (exponent : Int) : ofDecimal 0 exponent = zero := by
  rw [ofDecimal, if_pos rfl]

/-- Zeros behind the digits count as much as a greater exponent. -/
theorem ofDecimal_mul_pow (digits zeros : Nat) (exponent : Int) :
    ofDecimal (digits * Nat.pow 10 zeros) exponent = ofDecimal digits (exponent + zeros) := by
  have hpow : Nat.pow 10 zeros * Nat.pow 10 exponent.toNat * Nat.pow 10 (-(exponent + zeros)).toNat
      = Nat.pow 10 (exponent + zeros).toNat * Nat.pow 10 (-exponent).toNat := by
    simp only [Nat.pow_eq, ← Nat.pow_add]
    congr 1
    omega
  rw [ofDecimal_eq_nearest, ofDecimal_eq_nearest]
  apply nearest_congr (pow_ten_pos _) (pow_ten_pos _)
  calc digits * Nat.pow 10 zeros * Nat.pow 10 exponent.toNat * unitsPerOne * Nat.pow 10 (-(exponent + zeros)).toNat
      = digits * (Nat.pow 10 zeros * Nat.pow 10 exponent.toNat * Nat.pow 10 (-(exponent + zeros)).toNat)
          * unitsPerOne := by
        simp only [Nat.mul_assoc, Nat.mul_left_comm, Nat.mul_comm]
    _ = digits * (Nat.pow 10 (exponent + zeros).toNat * Nat.pow 10 (-exponent).toNat) * unitsPerOne := by
        rw [hpow]
    _ = digits * Nat.pow 10 (exponent + zeros).toNat * unitsPerOne * Nat.pow 10 (-exponent).toNat := by
        simp only [Nat.mul_assoc, Nat.mul_left_comm, Nat.mul_comm]

end Cadence.Magnitude
