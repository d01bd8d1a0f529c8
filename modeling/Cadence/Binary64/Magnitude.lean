/-!
# Magnitudes of binary64 numbers

The magnitudes of the binary64 format, infinity included, stand in ascending order; a magnitude is kept as its
rank in that order. All finite ones are whole multiples of the least positive one, `2 ^ -1074`, so a magnitude
is worth a natural number of such units (`Magnitude.units`), and exact arithmetic on magnitudes is arithmetic on
natural numbers. Every inexact operation ends in one rounding, `Magnitude.nearest`: to the nearest magnitude,
and of two equally near ones to the one of even rank. It depends on the quotient alone (`nearest_mul_mul`), and what
is worth a magnitude is rounded to that magnitude (`nearest_units`).
-/

namespace Cadence

/-- How many magnitudes there are from a power of two to the next one: `2 ^ 52`. -/
def binade : Nat := 4503599627370496

/-- The rank of infinity among the magnitudes. -/
def Magnitude.top : Nat := 2047 * binade

/-- A magnitude of the binary64 format: its place in ascending order, from zero to infinity. -/
structure Magnitude where
  /-- How many magnitudes are smaller. -/
  rank : Nat
  rank_le : rank ≤ Magnitude.top
deriving DecidableEq

/-- How often a unit is doubled to make one; also the number of its decimal places. -/
def unitPlaces : Nat := 1074

/-- How many units of `2 ^ -1074` make one. -/
def unitsPerOne : Nat := Nat.pow 2 unitPlaces

theorem unitsPerOne_pos : 0 < unitsPerOne := by
  decide +kernel

/-- A quotient of natural numbers rounded to a whole number, a half to the even neighbour. -/
def roundHalfEven (num den : Nat) : Nat :=
  if 2 * (num % den) < den ∨ 2 * (num % den) = den ∧ num / den % 2 = 0 then num / den else num / den + 1

/-- A quotient without remainder is not changed by rounding. -/
theorem roundHalfEven_mul {num den : Nat} (h : 0 < den) : roundHalfEven (num * den) den = num := by
  simp [roundHalfEven, Nat.mul_mod_left, Nat.mul_div_cancel _ h, h]

/-- Rounding depends on the quotient alone. -/
theorem roundHalfEven_mul_mul {num den k : Nat} (h : 0 < k) :
    roundHalfEven (num * k) (den * k) = roundHalfEven num den := by
  have hlt : 2 * (num % den * k) < den * k ↔ 2 * (num % den) < den := by
    rw [← Nat.mul_assoc]; exact Nat.mul_lt_mul_right h
  have heq : 2 * (num % den * k) = den * k ↔ 2 * (num % den) = den := by
    rw [← Nat.mul_assoc]; exact Nat.mul_left_inj (by omega)
  simp only [roundHalfEven, Nat.mul_mod_mul_right, Nat.mul_div_mul_right _ _ h, hlt, heq]

namespace Magnitude

def zero : Magnitude := ⟨0, Nat.zero_le _⟩

def infinite : Magnitude := ⟨top, Nat.le_refl _⟩

def isFinite (m : Magnitude) : Bool := m.rank < top

/-- The worth of a magnitude in units; infinity stands one step beyond the greatest finite one. The first `2 ^ 53`
magnitudes are one unit apart; from there on every `2 ^ 52` magnitudes the distance doubles. -/
def units (m : Magnitude) : Nat :=
  let doublings := m.rank / binade - 1
  (m.rank - doublings * binade) * Nat.pow 2 doublings

/-- The rank, in an order without end, of the magnitude nearest to `num / den` units: the quotient is brought to
53 binary digits by halving it, and rounded. -/
def nearestRank (num den : Nat) : Nat :=
  let doublings := (num / den).log2 - 52
  doublings * binade + roundHalfEven num (den * Nat.pow 2 doublings)

/-- The magnitude nearest to `num / den` units. -/
def nearest (num den : Nat) : Magnitude :=
  ⟨min (nearestRank num den) top, Nat.min_le_right _ _⟩

/-- The nearest magnitude depends on the quotient alone. -/
theorem nearest_mul_mul {num den k : Nat} (h : 0 < k) : nearest (num * k) (den * k) = nearest num den := by
  simp only [nearest, nearestRank, Nat.mul_div_mul_right _ _ h, Nat.mul_right_comm den k,
    roundHalfEven_mul_mul h]

private theorem nearestRank_of_digits {q d : Nat} (hq : binade ≤ q) (hq' : q < 2 * binade) :
    nearestRank (q * Nat.pow 2 d) 1 = d * binade + q := by
  have hpos : 0 < Nat.pow 2 d := Nat.two_pow_pos d
  have hlog : (q * Nat.pow 2 d).log2 = 52 + d := by
    have hne : q * Nat.pow 2 d ≠ 0 := Nat.mul_ne_zero (by unfold binade at hq; omega) (Nat.ne_of_gt hpos)
    refine (Nat.log2_eq_iff hne).2 ⟨?_, ?_⟩
    · rw [Nat.pow_add]; exact Nat.mul_le_mul_right _ hq
    · rw [Nat.add_right_comm, Nat.pow_add]; exact Nat.mul_lt_mul_of_pos_right hq' hpos
  simp only [nearestRank, Nat.div_one, hlog, Nat.add_sub_cancel_left, Nat.one_mul]
  rw [roundHalfEven_mul hpos]

/-- Every magnitude is the nearest one to its own worth. -/
theorem nearest_units (m : Magnitude) : nearest m.units 1 = m := by
  have key : nearestRank m.units 1 = m.rank := by
    unfold units
    generalize hd : m.rank / binade - 1 = d
    by_cases hsmall : m.rank < 2 * binade
    · have hd0 : d = 0 := by unfold binade at hd hsmall; omega
      subst hd0
      have hlog : m.rank.log2 - 52 = 0 := by
        by_cases h0 : m.rank = 0
        · simp [h0]
        · have : m.rank.log2 < 53 := (Nat.log2_lt h0).2 hsmall
          omega
      simp [nearestRank, hlog, roundHalfEven, Nat.mod_one]
    · unfold binade at hd hsmall
      rw [nearestRank_of_digits (by unfold binade; omega) (by unfold binade; omega)]
      unfold binade
      omega
  obtain ⟨rank, rank_le⟩ := m
  simp only [nearest, mk.injEq]
  rw [key]
  exact Nat.min_eq_left rank_le

theorem units_pos {m : Magnitude} (h : m.rank ≠ 0) : 0 < m.units := by
  have : m.rank - (m.rank / binade - 1) * binade ≠ 0 := by unfold binade; omega
  exact Nat.mul_pos (by omega) (Nat.two_pow_pos _)

/-- The magnitude nearest to `digits * 10 ^ exponent`. Powers beyond the format's reach are not computed: above
`10 ^ 400` every positive number rounds to infinity, and below half a unit every number rounds to zero. -/
def ofDecimal (digits : Nat) (exponent : Int) : Magnitude :=
  if digits = 0 then zero
  else if 400 < exponent then infinite
  else if (digits.log2 : Int) + 3 * exponent < -1100 then zero
  else if 0 ≤ exponent then nearest (digits * Nat.pow 10 exponent.toNat * unitsPerOne) 1
  else nearest (digits * unitsPerOne) (Nat.pow 10 (-exponent).toNat)

theorem ofDecimal_neg {digits places : Nat} (hd : digits ≠ 0) (hp : 0 < places)
    (hs : 3 * places ≤ digits.log2 + 1100) :
    ofDecimal digits (-places) = nearest (digits * unitsPerOne) (Nat.pow 10 places) := by
  have h1 : ¬ (400 : Int) < -(places : Int) := by omega
  have h2 : ¬ (digits.log2 : Int) + 3 * -(places : Int) < -1100 := by omega
  have h3 : ¬ (0 : Int) ≤ -(places : Int) := by omega
  simp only [ofDecimal, if_neg hd, if_neg h1, if_neg h2, if_neg h3, Int.neg_neg, Int.toNat_natCast]

end Magnitude

end Cadence
