import Cadence.Proofs.Binary64.Overflow

/-!
# Whole numbers

How the natural numbers lie among the binary64 numbers. Rounding keeps 53 binary digits and puts zeros behind them
(`Magnitude.units_nearest`). For natural numbers that is a rounding of natural numbers, `Binary64.roundedWhole`: it
changes nothing exactly if what lies behind the first 53 digits was zero before (`Binary64.roundedWhole_eq_iff`), as it
is up to `2 ^ 53`. Comparisons of numbers that are worth whole numbers are comparisons of those
(`Binary64.Worth.le_iff`).
-/

namespace Cadence

namespace Magnitude

theorem eq_of_units {m n : Magnitude} (h : m.units = n.units) : m = n := by
  rw [← nearest_units m, h, nearest_units]

/-- A magnitude is worth more than another exactly if its rank is greater. -/
theorem rank_le_iff {m n : Magnitude} : m.rank ≤ n.rank ↔ m.units ≤ n.units := by
  refine ⟨units_mono, fun h => ?_⟩
  rcases Nat.le_total m.rank n.rank with hle | hge
  · exact hle
  · have hsame : m = n := eq_of_units (Nat.le_antisymm h (units_mono hge))
    exact Nat.le_of_eq (congrArg rank hsame)

/-- The worth of a magnitude whose rank was put together from its doublings and its digits. Digits that were rounded up
to the next power of two count as the least digits of the next binade. -/
private theorem units_of_digits {m : Magnitude} {doublings digits : Nat}
    (hrank : m.rank = doublings * binade + digits) (hmost : digits ≤ 2 * binade)
    (hleast : doublings = 0 ∨ binade ≤ digits) : m.units = digits * Nat.pow 2 doublings := by
  show (m.rank - (m.rank / binade - 1) * binade) * Nat.pow 2 (m.rank / binade - 1) = _
  -- the digits fill a binade at most, or are the least of the next one
  rcases Nat.lt_or_eq_of_le hmost with hlt | rfl
  · have hdoublings : m.rank / binade - 1 = doublings := by
      unfold binade at *
      omega
    have hdigits : m.rank - doublings * binade = digits := by omega
    rw [hdoublings, hdigits]
  · have hdoublings : m.rank / binade - 1 = doublings + 1 := by
      unfold binade at *
      omega
    have hdigits : m.rank - (doublings + 1) * binade = binade := by
      unfold binade at *
      omega
    rw [hdoublings, hdigits, Nat.mul_comm 2 binade, Nat.mul_assoc, Nat.mul_comm 2]
    rfl

theorem div_le_roundHalfEven (num den : Nat) : num / den ≤ roundHalfEven num den := by
  unfold roundHalfEven
  split <;> omega

/-- A quotient that has to be halved has 53 binary digits left afterwards. -/
theorem binade_le_of_halved {num den : Nat} (h : 52 < (num / den).log2) :
    binade ≤ roundHalfEven num (den * Nat.pow 2 ((num / den).log2 - 52)) := by
  refine Nat.le_trans ?_ (div_le_roundHalfEven _ _)
  have hquotient : num / den ≠ 0 := by
    intro hzero
    simp [hzero] at h
  have hpow : Nat.pow 2 (num / den).log2 ≤ num / den := Nat.log2_self_le hquotient
  rw [← Nat.div_div_eq_div_mul]
  refine (Nat.le_div_iff_mul_le (Nat.two_pow_pos _)).2 ?_
  calc binade * Nat.pow 2 ((num / den).log2 - 52)
      = Nat.pow 2 (52 + ((num / den).log2 - 52)) := (Nat.pow_add 2 52 _).symm
    _ = Nat.pow 2 (num / den).log2 := by rw [Nat.add_sub_cancel' (by omega)]
    _ ≤ num / den := hpow

/-- The worth of the magnitude that a quotient is rounded to: its first 53 binary digits, rounded, and zeros behind
them. -/
theorem units_nearest {num den : Nat} (hden : 0 < den) (h : (nearest num den).isFinite = true) :
    (nearest num den).units
      = roundHalfEven num (den * Nat.pow 2 ((num / den).log2 - 52)) * Nat.pow 2 ((num / den).log2 - 52) := by
  have hfinite : min (nearestRank num den) top < top := of_decide_eq_true h
  have hrank : (nearest num den).rank = nearestRank num den := by
    show min (nearestRank num den) top = nearestRank num den
    omega
  have hmost := @lt_of_doublings num den hden
  have hpos : 0 < den * Nat.pow 2 ((num / den).log2 - 52) := Nat.mul_pos hden (Nat.two_pow_pos _)
  refine units_of_digits hrank (roundHalfEven_le hpos (Nat.le_of_lt hmost)) ?_
  by_cases hshort : (num / den).log2 ≤ 52
  · exact .inl (by omega)
  · exact .inr (binade_le_of_halved (by omega))

end Magnitude

namespace Binary64

/-- A natural number with its first 53 binary digits, rounded, and zeros behind them. -/
def roundedWhole (n : Nat) : Nat :=
  roundHalfEven n (Nat.pow 2 (n.log2 - 52)) * Nat.pow 2 (n.log2 - 52)

/-- Rounding to whole multiples changes what is no multiple, and nothing else. -/
theorem roundHalfEven_mul_eq_iff {n step : Nat} (h : 0 < step) : roundHalfEven n step * step = n ↔ step ∣ n := by
  constructor
  · exact fun heq => ⟨_, by rw [Nat.mul_comm]; exact heq.symm⟩
  · rintro ⟨k, rfl⟩
    rw [Nat.mul_comm step, roundHalfEven_mul h]

theorem roundedWhole_eq_iff {n : Nat} : roundedWhole n = n ↔ Nat.pow 2 (n.log2 - 52) ∣ n :=
  roundHalfEven_mul_eq_iff (Nat.two_pow_pos _)

/-- Up to `2 ^ 53` natural numbers are not rounded. -/
theorem roundedWhole_of_le {n : Nat} (h : n ≤ 2 * binade) : roundedWhole n = n := by
  rw [roundedWhole_eq_iff]
  rcases Nat.lt_or_eq_of_le h with hlt | rfl
  · have hlog : n.log2 - 52 = 0 := by
      by_cases hzero : n = 0
      · simp [hzero]
      · have : n.log2 < 53 := (Nat.log2_lt hzero).2 hlt
        omega
    rw [hlog]
    exact Nat.one_dvd n
  · decide +kernel

theorem one_le_roundedWhole {n : Nat} (h : 1 ≤ n) : 1 ≤ roundedWhole n := by
  have hstep : Nat.pow 2 (n.log2 - 52) ≤ n :=
    Nat.le_trans (Nat.pow_le_pow_right (by decide) (Nat.sub_le _ _)) (Nat.log2_self_le (by omega))
  have hquotient : 1 ≤ n / Nat.pow 2 (n.log2 - 52) := (Nat.one_le_div_iff (Nat.two_pow_pos _)).2 hstep
  exact Nat.mul_pos (Nat.le_trans hquotient (Magnitude.div_le_roundHalfEven _ _)) (Nat.two_pow_pos _)

/-- Rounding does not go beyond a power of two. -/
theorem roundedWhole_le_pow {n places : Nat} (h : n ≤ Nat.pow 2 places) : roundedWhole n ≤ Nat.pow 2 places := by
  by_cases hzero : n = 0
  · subst hzero
    rw [roundedWhole_of_le (Nat.zero_le _)]
    exact Nat.zero_le _
  · have hlog : n.log2 - 52 ≤ places := by
      have : n.log2 ≤ places := by
        rw [← Nat.log2_two_pow (n := places)]
        exact Magnitude.log2_le_log2 hzero h
      omega
    have hsplit : Nat.pow 2 (places - (n.log2 - 52)) * Nat.pow 2 (n.log2 - 52) = Nat.pow 2 places := by
      have := (Nat.pow_add 2 (places - (n.log2 - 52)) (n.log2 - 52)).symm
      rwa [Nat.sub_add_cancel hlog] at this
    rw [← hsplit] at h ⊢
    exact Nat.mul_le_mul_right _ (roundHalfEven_le (Nat.two_pow_pos _) h)

/-- A finite number is worth a whole number. -/
structure Worth (x : Binary64) (k : Int) : Prop where
  finite : x.isFinite = true
  units_eq : x.units = k * unitsPerOne

theorem Worth.truncate {x : Binary64} {k : Int} (h : x.Worth k) : x.truncate = k := by
  have hpos := unitsPerOne_pos
  rw [Binary64.truncate, h.units_eq]
  exact Int.mul_tdiv_cancel k (by omega)

theorem isWhole_iff {x : Binary64} : x.isWhole = true ↔ ∃ k, x.Worth k := by
  rcases x with _ | ⟨negative, m⟩
  · exact ⟨fun h => absurd h Bool.false_ne_true, fun ⟨_, h⟩ => h.finite⟩
  · have hunits : (signed negative m).units = m.units ∨ (signed negative m).units = -m.units := by
      cases negative
      · exact .inl rfl
      · exact .inr rfl
    have hdvd : m.units % unitsPerOne = 0 ↔ (unitsPerOne : Int) ∣ (signed negative m).units := by
      rw [← Nat.dvd_iff_mod_eq_zero, ← Int.natCast_dvd_natCast]
      rcases hunits with h | h
      · rw [h]
      · rw [h, Int.dvd_neg]
    rw [isWhole, Bool.and_eq_true, beq_iff_eq, hdvd]
    constructor
    · rintro ⟨hfinite, k, hk⟩
      exact ⟨k, hfinite, by rw [hk, Int.mul_comm]⟩
    · rintro ⟨k, hfinite, hk⟩
      exact ⟨hfinite, k, by rw [hk, Int.mul_comm]⟩

/-- The finite numbers are ordered by their worth; only infinities are worth more than they count. -/
theorem le_iff_units {x y : Binary64} (hx : x ≠ nan) (hy : y ≠ nan) : x.le y = true ↔ x.units ≤ y.units := by
  have hzero : ∀ m : Magnitude, m.rank = 0 ↔ m.units = 0 := fun m =>
    ⟨Magnitude.units_eq_zero, fun h => Classical.byContradiction fun hne => by
      have := Magnitude.units_pos hne
      omega⟩
  rcases x with _ | ⟨_ | _, m⟩
  · exact absurd rfl hx
  · rcases y with _ | ⟨_ | _, n⟩
    · exact absurd rfl hy
    · have := @Magnitude.rank_le_iff m n
      simp only [le, position, units, decide_eq_true_eq]
      omega
    · have := hzero m
      have := hzero n
      simp only [le, position, units, decide_eq_true_eq]
      omega
  · rcases y with _ | ⟨_ | _, n⟩
    · exact absurd rfl hy
    · simp only [le, position, units, decide_eq_true_eq]
      omega
    · have := @Magnitude.rank_le_iff n m
      simp only [le, position, units, decide_eq_true_eq]
      omega

theorem lt_iff_not_le {x y : Binary64} (hx : x ≠ nan) (hy : y ≠ nan) : x.lt y = true ↔ ¬ y.le x = true := by
  have hposition : ∀ {z : Binary64}, z ≠ nan → ∃ i, z.position = some i := by
    intro z hz
    rcases z with _ | ⟨_ | _, m⟩
    · exact absurd rfl hz
    · exact ⟨_, rfl⟩
    · exact ⟨_, rfl⟩
  obtain ⟨i, hi⟩ := hposition hx
  obtain ⟨j, hj⟩ := hposition hy
  simp only [lt, le, hi, hj, decide_eq_true_eq]
  omega

theorem lt_iff_units {x y : Binary64} (hx : x ≠ nan) (hy : y ≠ nan) : x.lt y = true ↔ x.units < y.units := by
  rw [lt_iff_not_le hx hy, le_iff_units hy hx]
  omega

theorem equals_iff_le {x y : Binary64} : x.equals y = true ↔ x.le y = true ∧ y.le x = true := by
  unfold equals le
  cases x.position with
  | none => simp
  | some i =>
    cases y.position with
    | none => simp
    | some j =>
      simp only [beq_iff_eq, decide_eq_true_eq]
      omega

/-- Numbers are equal if they are worth the same. The two zeros are. -/
theorem equals_iff_units {x y : Binary64} (hx : x ≠ nan) (hy : y ≠ nan) : x.equals y = true ↔ x.units = y.units := by
  rw [equals_iff_le, le_iff_units hx hy, le_iff_units hy hx]
  omega

theorem Worth.ne_nan {x : Binary64} {k : Int} (h : x.Worth k) : x ≠ nan := by
  rintro rfl
  exact absurd h.finite Bool.false_ne_true

/-- Numbers that are worth whole numbers are ordered as those. -/
theorem Worth.le_iff {x y : Binary64} {j k : Int} (hx : x.Worth j) (hy : y.Worth k) : x.le y = true ↔ j ≤ k := by
  have hpos : (0 : Int) < unitsPerOne := by exact_mod_cast unitsPerOne_pos
  rw [le_iff_units hx.ne_nan hy.ne_nan, hx.units_eq, hy.units_eq]
  exact Int.mul_le_mul_right hpos

theorem Worth.clamp {x : Binary64} {k low high : Int} (h : x.Worth k) : x.clamp low high = max low (min high k) := by
  rcases x with _ | ⟨negative, m⟩
  · exact absurd rfl h.ne_nan
  · have hfinite : m.isFinite = true := h.finite
    simp only [Binary64.clamp, hfinite, if_true, h.truncate]

/-- The digits of a natural number stand `unitPlaces` places further to the left among its units. -/
private theorem log2_mul_unitsPerOne {n : Nat} (h : n ≠ 0) : (n * unitsPerOne).log2 = n.log2 + unitPlaces := by
  have hpos := unitsPerOne_pos
  have hne : n * unitsPerOne ≠ 0 := Nat.mul_ne_zero h (by omega)
  have hlow : Nat.pow 2 n.log2 ≤ n := Nat.log2_self_le h
  have hhigh : n < Nat.pow 2 (n.log2 + 1) := Nat.lt_log2_self
  have hpow : ∀ e, Nat.pow 2 (e + unitPlaces) = Nat.pow 2 e * unitsPerOne := by
    intro e
    unfold unitsPerOne
    generalize unitPlaces = places
    exact Nat.pow_add 2 e places
  refine (Nat.log2_eq_iff hne).2 ⟨?_, ?_⟩
  · show Nat.pow 2 (n.log2 + unitPlaces) ≤ _
    rw [hpow]
    exact Nat.mul_le_mul_right _ hlow
  · show _ < Nat.pow 2 (n.log2 + unitPlaces + 1)
    rw [Nat.add_right_comm, hpow]
    exact Nat.mul_lt_mul_of_pos_right hhigh hpos

/-- Rounding the units of a natural number is rounding the natural number. -/
private theorem round_units (n : Nat) :
    roundHalfEven (n * unitsPerOne) (Nat.pow 2 ((n * unitsPerOne).log2 - 52))
      * Nat.pow 2 ((n * unitsPerOne).log2 - 52) = roundedWhole n * unitsPerOne := by
  by_cases hzero : n = 0
  · subst hzero
    decide +kernel
  rw [log2_mul_unitsPerOne hzero]
  by_cases hlong : 52 ≤ n.log2
  · -- the places that are lost are places of `n`
    have hstep : Nat.pow 2 (n.log2 + unitPlaces - 52) = Nat.pow 2 (n.log2 - 52) * unitsPerOne := by
      unfold unitsPerOne
      rw [Nat.sub_add_comm hlong]
      generalize unitPlaces = places
      exact Nat.pow_add 2 _ places
    rw [hstep, roundHalfEven_mul_mul unitsPerOne_pos, ← Nat.mul_assoc]
    rfl
  · -- no place of `n` is lost
    have hdvd : Nat.pow 2 (n.log2 + unitPlaces - 52) ∣ n * unitsPerOne := by
      refine Nat.dvd_mul_left_of_dvd ?_ n
      unfold unitsPerOne
      generalize unitPlaces = places
      exact Nat.pow_dvd_pow 2 (by omega)
    have hpos : 0 < Nat.pow 2 (n.log2 + unitPlaces - 52) := Nat.two_pow_pos _
    have hlt : n < Nat.pow 2 53 := (Nat.log2_lt hzero).1 (by omega)
    rw [(roundHalfEven_mul_eq_iff hpos).2 hdvd, roundedWhole_of_le (Nat.le_of_lt hlt)]

/-- An integer of at most 64 binary digits becomes a number that is worth it, once it is rounded. -/
theorem worth_ofInt {i : Int} (h : i.natAbs ≤ UInt64.size) : (ofInt i).Worth (i.sign * roundedWhole i.natAbs) := by
  have hfinite : (Magnitude.nearest (i.natAbs * unitsPerOne) 1).isFinite = true := by
    refine Magnitude.isFinite_nearest Nat.one_pos ?_
    calc i.natAbs * unitsPerOne ≤ UInt64.size * unitsPerOne := Nat.mul_le_mul_right _ h
      _ ≤ Magnitude.greatest.units * 1 := by decide +kernel
  have hunits : (Magnitude.nearest (i.natAbs * unitsPerOne) 1).units = roundedWhole i.natAbs * unitsPerOne := by
    rw [Magnitude.units_nearest Nat.one_pos hfinite, Nat.div_one, Nat.one_mul]
    exact round_units i.natAbs
  refine ⟨hfinite, ?_⟩
  by_cases hnegative : i < 0
  · rw [ofInt, ofUnits, decide_eq_true hnegative, units, hunits, Int.sign_eq_neg_one_of_neg hnegative, Int.natCast_mul,
      Int.neg_one_mul, Int.neg_mul]
  · rw [ofInt, ofUnits, decide_eq_false hnegative, units, hunits, Int.natCast_mul]
    by_cases hzero : i = 0
    · subst hzero
      rfl
    · rw [Int.sign_eq_one_of_pos (by omega), Int.one_mul]

/-- No integer but zero becomes a number that equals zero. -/
theorem equals_zero_ofInt {i : Int} (h : i.natAbs ≤ UInt64.size) : (ofInt i).equals zero = true ↔ i = 0 := by
  have hworth := worth_ofInt h
  have hpos : (unitsPerOne : Int) ≠ 0 := by
    have := unitsPerOne_pos
    omega
  have hzero : zero.units = 0 := by decide +kernel
  rw [equals_iff_units hworth.ne_nan (by intro hnan; cases hnan), hworth.units_eq, hzero]
  constructor
  · intro hproduct
    refine Classical.byContradiction fun hne => ?_
    have hrounded : 1 ≤ roundedWhole i.natAbs := one_le_roundedWhole (by omega)
    rcases Int.mul_eq_zero.1 hproduct with hproduct | hproduct
    · rcases Int.mul_eq_zero.1 hproduct with hsign | hnone
      · exact hne (Int.sign_eq_zero_iff_zero.1 hsign)
      · omega
    · exact hpos hproduct
  · rintro rfl
    rw [Int.sign_zero, Int.zero_mul, Int.zero_mul]

/-- An integer that keeps its digits becomes a number that is worth it. -/
theorem worth_ofInt_of_exact {i : Int} (h : i.natAbs ≤ UInt64.size) (hexact : roundedWhole i.natAbs = i.natAbs) :
    (ofInt i).Worth i := by
  have := worth_ofInt h
  rwa [hexact, Int.sign_mul_natAbs] at this

end Binary64

end Cadence
