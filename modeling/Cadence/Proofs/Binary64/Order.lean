import Cadence.Binary64.Basic

/-!
# The order of magnitudes

A greater rank is worth more: `Magnitude.units_mono`. So the comparisons of binary64 numbers, which compare ranks,
compare what the numbers are worth.
-/

namespace Cadence

namespace Magnitude

/-- A magnitude of greater rank is worth at least as much. -/
theorem units_mono {m n : Magnitude} (h : m.rank ≤ n.rank) : m.units ≤ n.units := by
  unfold units
  generalize hc : m.rank / binade - 1 = c
  generalize hd : n.rank / binade - 1 = d
  have hcd : c ≤ d := by
    have : m.rank / binade ≤ n.rank / binade := Nat.div_le_div_right h
    omega
  rcases Nat.lt_or_eq_of_le hcd with hlt | rfl
  · -- the worth of `m` is below the next power of two, and that of `n` is not
    have hm : m.rank - c * binade ≤ 2 * binade := by
      unfold binade at hc ⊢
      omega
    have hn : binade ≤ n.rank - d * binade := by
      unfold binade at hd ⊢
      omega
    calc (m.rank - c * binade) * Nat.pow 2 c
        ≤ 2 * binade * Nat.pow 2 c := Nat.mul_le_mul_right _ hm
      _ = binade * Nat.pow 2 (c + 1) := by rw [Nat.mul_comm 2, Nat.mul_assoc, Nat.mul_comm 2]; rfl
      _ ≤ binade * Nat.pow 2 d := Nat.mul_le_mul_left _ (Nat.pow_le_pow_right (by decide) hlt)
      _ ≤ (n.rank - d * binade) * Nat.pow 2 d := Nat.mul_le_mul_right _ hn
  · exact Nat.mul_le_mul_right _ (by omega)

/-- No magnitude but infinity is not finite. -/
theorem eq_infinite_of_isFinite {m : Magnitude} (h : m.isFinite = false) : m = infinite := by
  obtain ⟨rank, rank_le⟩ := m
  have : ¬ rank < top := of_decide_eq_false h
  have heq : rank = top := by omega
  subst heq
  rfl

/-- One is worth `unitsPerOne` units. -/
theorem units_one : (nearest (1 * unitsPerOne) 1).units = unitsPerOne := by
  decide +kernel

end Magnitude

namespace Binary64

theorem ofInt_natCast (n : Nat) : ofInt n = .signed false (.nearest (n * unitsPerOne) 1) := by
  unfold ofInt ofUnits
  rw [Int.natAbs_natCast, decide_eq_false (by omega)]

/-- A number of at least one is worth at least one, and has no minus sign. -/
theorem exists_of_one_le {x : Binary64} (h : (Binary64.ofInt 1).le x = true) :
    ∃ m, x = .signed false m ∧ unitsPerOne ≤ m.units := by
  have hone : Binary64.ofInt 1 = .signed false (.nearest (1 * unitsPerOne) 1) := by
    rw [← Int.natCast_one, ofInt_natCast]
  have hpos : 0 < (Magnitude.nearest (1 * unitsPerOne) 1).rank := by decide +kernel
  rw [hone] at h
  rcases x with _ | ⟨_ | _, m⟩
  · simp only [le, position, Bool.false_eq_true] at h
  · refine ⟨m, rfl, ?_⟩
    rw [← Magnitude.units_one]
    apply Magnitude.units_mono
    simpa only [le, position, decide_eq_true_eq, Int.ofNat_le] using h
  · simp only [le, position, decide_eq_true_eq] at h
    omega

theorem clamp_le (x : Binary64) {high : Int} (h : 0 ≤ high) : x.clamp 0 high ≤ high := by
  rcases x with _ | ⟨s, m⟩
  · exact h
  · simp only [clamp]
    split
    · omega
    · split <;> omega

/-- A finite number of at least one keeps a whole part of at least one, up to a bound. -/
theorem one_le_clamp {x : Binary64} {high : Int} (h : (Binary64.ofInt 1).le x = true) (hf : x.isFinite = true)
    (hhigh : 1 ≤ high) : 1 ≤ x.clamp 0 high := by
  obtain ⟨m, rfl, hm⟩ := exists_of_one_le h
  have htrunc : 1 ≤ (Binary64.signed false m).truncate := by
    have hdiv : 1 ≤ m.units / unitsPerOne := (Nat.one_le_div_iff unitsPerOne_pos).2 hm
    simp only [truncate, units]
    rw [Int.tdiv_eq_ediv_of_nonneg (by omega)]
    omega
  simp only [isFinite] at hf
  simp only [clamp, hf, if_true]
  omega

end Binary64

end Cadence
