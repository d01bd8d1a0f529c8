import Cadence.Binary64.Shortest
import Cadence.Proofs.Binary64.Decimal

/-!
# Overflow

Up to the greatest finite magnitude everything is nearest to a finite magnitude (`Magnitude.isFinite_nearest`), so that
an operation on finite numbers gives an infinity only if its exact result is greater than that. Intervals are finite and
not negative (`Binary64.IsInterval`), and so is the product of two of them unless it overflows
(`Binary64.IsInterval.mul`).
-/

namespace Cadence

theorem roundHalfEven_le {num den most : Nat} (hden : 0 < den) (h : num ≤ most * den) :
    roundHalfEven num den ≤ most := by
  have hquotient : num / den ≤ most := Nat.div_le_of_le_mul (by rwa [Nat.mul_comm])
  unfold roundHalfEven
  split
  · exact hquotient
  · next hup =>
    -- a quotient that is rounded up has a remainder, so it is less than `most`
    rcases Nat.lt_or_eq_of_le hquotient with hlt | heq
    · exact hlt
    · have hsplit := Nat.div_add_mod num den
      rw [heq, Nat.mul_comm] at hsplit
      omega

namespace Magnitude

/-- The greatest finite magnitude. -/
def greatest : Magnitude :=
  ⟨top - 1, Nat.sub_le _ _⟩

/-- How often a unit is doubled to make the distance of the greatest finite magnitude from the one before it. -/
def mostDoublings : Nat := 2045

theorem units_greatest : greatest.units = (2 * binade - 1) * Nat.pow 2 mostDoublings := by
  decide +kernel

/-- A quotient that was halved so often has at most 53 binary digits. -/
theorem lt_of_doublings {num den : Nat} (hden : 0 < den) :
    num < 2 * binade * (den * Nat.pow 2 ((num / den).log2 - 52)) := by
  generalize hd : (num / den).log2 - 52 = d
  have hpow : Nat.pow 2 ((num / den).log2 + 1) ≤ Nat.pow 2 (d + 53) := Nat.pow_le_pow_right (by decide) (by omega)
  have hsplit : Nat.pow 2 (d + 53) = Nat.pow 2 d * (2 * binade) := Nat.pow_add 2 d 53
  calc num < Nat.pow 2 (d + 53) * den :=
        (Nat.div_lt_iff_lt_mul hden).1 (Nat.lt_of_lt_of_le Nat.lt_log2_self hpow)
    _ = 2 * binade * (den * Nat.pow 2 d) := by
        rw [hsplit, Nat.mul_comm (Nat.pow 2 d), Nat.mul_assoc, Nat.mul_comm (Nat.pow 2 d)]

private theorem doublings_le {num den : Nat} (h : num ≤ greatest.units * den) :
    (num / den).log2 - 52 ≤ mostDoublings := by
  by_cases hzero : num / den = 0
  · rw [hzero, Nat.log2_zero]
    exact Nat.zero_le _
  · rw [Nat.mul_comm] at h
    calc (num / den).log2 - 52 ≤ greatest.units.log2 - 52 :=
          Nat.sub_le_sub_right (log2_le_log2 hzero (Nat.div_le_of_le_mul h)) 52
      _ ≤ mostDoublings := by decide +kernel

/-- What is not greater than the greatest finite magnitude is nearest to a finite one. -/
theorem isFinite_nearest {num den : Nat} (hden : 0 < den) (h : num ≤ greatest.units * den) :
    (nearest num den).isFinite = true := by
  have hdoublings := doublings_le h
  have hdigits := @lt_of_doublings num den hden
  have key : nearestRank num den < top := by
    show (_ - 52) * binade + roundHalfEven num (den * Nat.pow 2 (_ - 52)) < 2047 * binade
    generalize (num / den).log2 - 52 = d at hdoublings hdigits
    have hpos : 0 < den * Nat.pow 2 d := Nat.mul_pos hden (Nat.two_pow_pos d)
    rcases Nat.lt_or_eq_of_le hdoublings with hlt | rfl
    · -- even a quotient that is rounded up to the next power of two stays below infinity
      calc d * binade + roundHalfEven num (den * Nat.pow 2 d)
          ≤ 2044 * binade + 2 * binade :=
            Nat.add_le_add (Nat.mul_le_mul_right _ (Nat.le_of_lt_succ hlt))
              (roundHalfEven_le hpos (Nat.le_of_lt hdigits))
        _ < 2047 * binade := by decide
    · have hgreatest : num ≤ (2 * binade - 1) * (den * Nat.pow 2 mostDoublings) := by
        rwa [Nat.mul_comm den, ← Nat.mul_assoc, ← units_greatest]
      calc mostDoublings * binade + roundHalfEven num (den * Nat.pow 2 mostDoublings)
          ≤ mostDoublings * binade + (2 * binade - 1) := Nat.add_le_add_left (roundHalfEven_le hpos hgreatest) _
        _ < 2047 * binade := by decide
  show decide (min (nearestRank num den) top < top) = true
  exact decide_eq_true (by omega)

theorem units_eq_zero {m : Magnitude} (h : m.rank = 0) : m.units = 0 := by
  simp [units, h]

end Magnitude

namespace Binary64

/-- One is a unit of the multiplication, also for zeros, infinities and "not a number". -/
theorem mul_one (x : Binary64) : x.mul (.ofInt 1) = x := by
  have hone : Binary64.ofInt 1 = .signed false (.nearest (1 * unitsPerOne) 1) := by
    rw [← Int.natCast_one, ofInt_natCast]
  have hfinite : (Magnitude.nearest (1 * unitsPerOne) 1).isFinite = true := by decide +kernel
  have hpos : (Magnitude.nearest (1 * unitsPerOne) 1).rank ≠ 0 := by decide +kernel
  rw [hone]
  rcases x with _ | ⟨negative, m⟩
  · rfl
  · rw [mul, hfinite, Bool.and_true, Bool.bne_false]
    split
    · have hnearest : Magnitude.nearest (m.units * unitsPerOne) (1 * unitsPerOne) = m := by
        rw [Magnitude.nearest_mul_mul unitsPerOne_pos, Magnitude.nearest_units]
      rw [Nat.one_mul] at hnearest
      rw [Magnitude.units_one, ofUnits, hnearest]
    · next hinfinite =>
      obtain rfl : m = .infinite := Magnitude.eq_infinite_of_isFinite (Bool.not_eq_true _ ▸ hinfinite)
      have htop : Magnitude.infinite.rank ≠ 0 := by decide
      rw [decide_eq_false htop, decide_eq_false hpos]
      rfl

theorem mul_comm (x y : Binary64) : x.mul y = y.mul x := by
  rcases x with _ | ⟨s, m⟩
  · cases y <;> rfl
  · rcases y with _ | ⟨t, n⟩
    · rfl
    · have hsign : (s != t) = (t != s) := by cases s <;> cases t <;> rfl
      rw [mul, mul, Bool.and_comm, Nat.mul_comm, Bool.or_comm, hsign]

theorem one_mul (x : Binary64) : (Binary64.ofInt 1).mul x = x := by
  rw [mul_comm, mul_one]

theorem zero_mul_of_not_isFinite {x : Binary64} (h : x.isFinite = false) : zero.mul x = nan := by
  rcases x with _ | ⟨negative, m⟩
  · rfl
  · have hm : m.isFinite = false := h
    rw [zero, mul, hm, Bool.and_false, if_neg Bool.false_ne_true]
    rfl

/-- A number is finite and not negative, as intervals have to be. Minus zero is not negative. -/
structure IsInterval (x : Binary64) : Prop where
  finite : x.isFinite = true
  nonneg : zero.le x = true

/-- Of the numbers with a minus sign, only zero is not negative. -/
theorem zero_le_signed_iff {negative : Bool} {m : Magnitude} :
    zero.le (.signed negative m) = true ↔ (negative = true → m.rank = 0) := by
  cases negative with
  | false =>
    show decide ((0 : Int) ≤ m.rank) = true ↔ _
    simp
  | true =>
    show decide ((0 : Int) ≤ -m.rank) = true ↔ _
    simp

theorem isInterval_ofInt {i : Int64} (h : 0 ≤ i.toInt) : (ofInt i.toInt).IsInterval := by
  obtain ⟨n, hn⟩ := Int.eq_ofNat_of_zero_le h
  have hlt := i.toInt_lt
  have hbound : n * unitsPerOne ≤ Magnitude.greatest.units * 1 :=
    calc n * unitsPerOne ≤ 9223372036854775808 * unitsPerOne := Nat.mul_le_mul_right _ (by omega)
      _ ≤ Magnitude.greatest.units * 1 := by decide +kernel
  rw [hn, ofInt_natCast]
  exact ⟨Magnitude.isFinite_nearest Nat.one_pos hbound, zero_le_signed_iff.2 (by simp)⟩

/-- The product of two intervals is not negative, and finite unless it overflows: then the exact product is greater than
every finite number. -/
theorem IsInterval.mul {x y : Binary64} (hx : x.IsInterval) (hy : y.IsInterval) :
    zero.le (x.mul y) = true ∧ ((x.mul y).isFinite = true ∨
      x.mul y = infinity false ∧ (Magnitude.greatest.units * unitsPerOne : Nat) < x.units * y.units) := by
  rcases x with _ | ⟨s, m⟩
  · exact absurd hx.finite Bool.false_ne_true
  rcases y with _ | ⟨t, n⟩
  · exact absurd hy.finite Bool.false_ne_true
  have hm : m.isFinite = true := hx.finite
  have hn : n.isFinite = true := hy.finite
  have hmul : (signed s m).mul (signed t n)
      = .signed (s != t) (.nearest (m.units * n.units) unitsPerOne) := by
    simp only [Binary64.mul, hm, hn, Bool.and_self, if_true, ofUnits]
  rw [hmul]
  by_cases hsign : s = false ∧ t = false
  · obtain ⟨rfl, rfl⟩ := hsign
    refine ⟨zero_le_signed_iff.2 (by simp), ?_⟩
    cases hfinite : (Magnitude.nearest (m.units * n.units) unitsPerOne).isFinite with
    | true => exact .inl hfinite
    | false =>
      refine .inr ⟨congrArg (signed false) (Magnitude.eq_infinite_of_isFinite hfinite), ?_⟩
      have hlt : Magnitude.greatest.units * unitsPerOne < m.units * n.units := by
        refine Nat.lt_of_not_le fun hle => ?_
        rw [Magnitude.isFinite_nearest unitsPerOne_pos hle] at hfinite
        cases hfinite
      simp only [units]
      exact_mod_cast hlt
  · -- one of the factors is minus zero, and so the product is a zero
    have hzero : m.units * n.units = 0 := by
      have hs := zero_le_signed_iff.1 hx.nonneg
      have ht := zero_le_signed_iff.1 hy.nonneg
      cases s with
      | true => rw [Magnitude.units_eq_zero (hs rfl), Nat.zero_mul]
      | false =>
        cases t with
        | true => rw [Magnitude.units_eq_zero (ht rfl), Nat.mul_zero]
        | false => exact absurd ⟨rfl, rfl⟩ hsign
    rw [hzero, Magnitude.nearest_eq_zero (by have := unitsPerOne_pos; omega)]
    exact ⟨zero_le_signed_iff.2 fun _ => rfl, .inl rfl⟩

end Binary64

end Cadence
