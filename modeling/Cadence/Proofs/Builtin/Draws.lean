import Cadence.Builtin.Functions
import Cadence.Proofs.Binary64.Whole

/-!
# Integers drawn from a range

`Builtin.randint` draws from the range between two whole numbers. A whole binary64 number may lie far beyond the
integers of 64 bits, and then the nearest of these stands for it (`Builtin.integer_of_isWhole`). So what is refused is a
range of which the nearest integers stand the wrong way round (`Builtin.randint_eq`). That is every range in which no
integer lies, but for those that lie beyond one end of the integers of 64 bits (`Builtin.IsBeyond`): from them that end
is drawn, although it does not lie in them (`Builtin.draws_randint`).
-/

namespace Cadence

namespace Builtin

/-- A value is an integer, or a binary64 number that is worth one. -/
def IsWhole : Value → Int → Prop
  | .int i, k => i.toInt = k
  | .float x, k => x.Worth k
  | _, _ => False

/-- The integer of 64 bits that is nearest to an integer. -/
def nearestInt64 (k : Int) : Int :=
  max Int64.minValue.toInt (min Int64.maxValue.toInt k)

/-- An integer of 64 bits lies in the range between two integers. -/
def Lies (j k : Int) (n : Int64) : Prop :=
  j ≤ n.toInt ∧ n.toInt ≤ k

/-- The range between two integers lies beyond the greatest integer of 64 bits, or it ends there and begins beyond
it. -/
def IsAbove (j k : Int) : Prop :=
  Int64.maxValue.toInt < j ∧ Int64.maxValue.toInt ≤ k

/-- The range between two integers lies beyond the least integer of 64 bits, or it begins there and ends beyond it. -/
def IsBelow (j k : Int) : Prop :=
  j ≤ Int64.minValue.toInt ∧ k < Int64.minValue.toInt

/-- The range between two integers lies beyond one end of the integers of 64 bits. -/
def IsBeyond (j k : Int) : Prop :=
  IsAbove j k ∨ IsBelow j k

variable {function : String} {arguments : List Value} {index : Nat} {low high : Value} {j k : Int}

private theorem toInt_minValue : Int64.minValue.toInt = -9223372036854775808 := by decide

private theorem toInt_maxValue : Int64.maxValue.toInt = 9223372036854775807 := by decide

theorem nearestInt64_toInt (i : Int64) : nearestInt64 i.toInt = i.toInt := by
  have hmin := i.minValue_le_toInt
  have hmax := i.toInt_le
  unfold nearestInt64
  omega

theorem nearestInt64_of_le (h : k ≤ Int64.minValue.toInt) : nearestInt64 k = Int64.minValue.toInt := by
  have hmin := toInt_minValue
  have hmax := toInt_maxValue
  unfold nearestInt64
  omega

theorem nearestInt64_of_ge (h : Int64.maxValue.toInt ≤ k) : nearestInt64 k = Int64.maxValue.toInt := by
  have hmin := toInt_minValue
  have hmax := toInt_maxValue
  unfold nearestInt64
  omega

/-- What stands for a whole number is the nearest integer of 64 bits. -/
theorem integer_of_isWhole {v : Value} (hget : arguments[index]? = some v) (h : IsWhole v k) :
    integer function arguments index = .ok (nearestInt64 k) := by
  rw [integer, hget]
  cases v with
  | int i =>
    obtain rfl : i.toInt = k := h
    rw [nearestInt64_toInt]
  | float x =>
    have hwhole : x.isWhole = true := Binary64.isWhole_iff.2 ⟨k, h⟩
    simp only [hwhole, if_true, Binary64.Worth.clamp h, nearestInt64]
  | null => exact h.elim
  | boolean _ => exact h.elim
  | string _ => exact h.elim
  | list _ => exact h.elim
  | map _ => exact h.elim

/-- The nearest integers are what counts of a range. -/
theorem randint_eq (hlow : IsWhole low j) (hhigh : IsWhole high k) (thrown : Nat) :
    randint thrown [low, high] =
      if nearestInt64 k < nearestInt64 j then
        .error ("randint: invalid range " ++ toString (nearestInt64 j) ++ "..=" ++ toString (nearestInt64 k))
      else
        .ok (.int (Int64.ofInt
          (nearestInt64 j + thrown % (nearestInt64 k - nearestInt64 j + 1).toNat))) := by
  have hfirst : integer "randint" [low, high] 0 = .ok (nearestInt64 j) := integer_of_isWhole rfl hlow
  have hsecond : integer "randint" [low, high] 1 = .ok (nearestInt64 k) := integer_of_isWhole rfl hhigh
  rw [randint, hfirst]
  show (integer "randint" [low, high] 1 >>= _) = _
  rw [hsecond]
  rfl

/-- The nearest integers stand the wrong way round if the ends of the range do, and it does not lie beyond one end of
the integers of 64 bits. -/
theorem nearestInt64_lt_iff : nearestInt64 k < nearestInt64 j ↔ k < j ∧ ¬ IsBeyond j k := by
  have hmin := toInt_minValue
  have hmax := toInt_maxValue
  unfold nearestInt64 IsBeyond IsAbove IsBelow
  omega

/-- What lies between the ends of a range lies between their nearest integers. -/
theorem Lies.nearest {n : Int64} (h : Lies j k n) : nearestInt64 j ≤ n.toInt ∧ n.toInt ≤ nearestInt64 k := by
  have hmin := n.minValue_le_toInt
  have hmax := n.toInt_le
  unfold nearestInt64
  unfold Lies at h
  omega

/-- In a range in which some integer lies, there lies all that lies between the nearest integers. -/
theorem Lies.of_nearest {m n : Int64} (h : Lies j k m) (hleast : nearestInt64 j ≤ n.toInt)
    (hgreatest : n.toInt ≤ nearestInt64 k) : Lies j k n := by
  have hmin := m.minValue_le_toInt
  have hmax := m.toInt_le
  unfold nearestInt64 at hleast hgreatest
  unfold Lies at h ⊢
  omega

/-- A range in which no integer lies has its ends the wrong way round, or lies beyond. -/
theorem lt_of_not_lies (hnone : ∀ n, ¬ Lies j k n) (h : ¬ IsBeyond j k) : k < j := by
  refine Classical.byContradiction fun hle => ?_
  have hmin := toInt_minValue
  have hmax := toInt_maxValue
  unfold IsBeyond IsAbove IsBelow at h
  -- the integer that is nearest to the lower end
  have hnearest : (Int64.ofInt (nearestInt64 j)).toInt = nearestInt64 j := by
    refine Int64.toInt_ofInt_of_le ?_ ?_ <;> unfold nearestInt64 <;> omega
  refine hnone (Int64.ofInt (nearestInt64 j)) ?_
  rw [Lies, hnearest]
  unfold nearestInt64
  omega

/-- What is drawn lies between the nearest integers. -/
theorem exists_randint (hlow : IsWhole low j) (hhigh : IsWhole high k) (h : nearestInt64 j ≤ nearestInt64 k)
    (thrown : Nat) :
    ∃ n : Int64, randint thrown [low, high] = .ok (.int n) ∧ nearestInt64 j ≤ n.toInt ∧ n.toInt ≤ nearestInt64 k := by
  have hmin := toInt_minValue
  have hmax := toInt_maxValue
  have hstep : thrown % (nearestInt64 k - nearestInt64 j + 1).toNat < (nearestInt64 k - nearestInt64 j + 1).toNat :=
    Nat.mod_lt _ (by omega)
  have hends : Int64.minValue.toInt ≤ nearestInt64 j ∧ nearestInt64 k ≤ Int64.maxValue.toInt := by
    unfold nearestInt64
    omega
  refine ⟨_, by rw [randint_eq hlow hhigh, if_neg (Int.not_lt.2 h)], ?_⟩
  rw [Int64.toInt_ofInt_of_le (by omega) (by omega)]
  omega

/-- Every integer between the nearest ones may be drawn. -/
theorem exists_thrown (hlow : IsWhole low j) (hhigh : IsWhole high k) {n : Int64} (hleast : nearestInt64 j ≤ n.toInt)
    (hgreatest : n.toInt ≤ nearestInt64 k) : ∃ thrown, randint thrown [low, high] = .ok (.int n) := by
  refine ⟨(n.toInt - nearestInt64 j).toNat, ?_⟩
  have hstep : nearestInt64 j + (n.toInt - nearestInt64 j).toNat = n.toInt := by omega
  rw [randint_eq hlow hhigh, if_neg (by omega), Int.emod_eq_of_lt (by omega) (by omega), hstep, Int64.ofInt_toInt]

/-- The draws from the range between two integers. -/
structure Draws (j k : Int) (low high : Value) : Prop where
  /-- If integers lie in the range, one of them is drawn. -/
  inside : (∃ n, Lies j k n) → ∀ thrown, ∃ n, randint thrown [low, high] = .ok (.int n) ∧ Lies j k n
  every : ∀ n, Lies j k n → ∃ thrown, randint thrown [low, high] = .ok (.int n)
  /-- If none lies in it, it is refused unless it lies beyond. -/
  refused : (∀ n, ¬ Lies j k n) → ¬ IsBeyond j k → ∀ thrown, randint thrown [low, high] =
    .error ("randint: invalid range " ++ toString (nearestInt64 j) ++ "..=" ++ toString (nearestInt64 k))
  above : IsAbove j k → ¬ Lies j k Int64.maxValue ∧
    ∀ thrown, randint thrown [low, high] = .ok (.int Int64.maxValue)
  below : IsBelow j k → ¬ Lies j k Int64.minValue ∧
    ∀ thrown, randint thrown [low, high] = .ok (.int Int64.minValue)

/-- Of a range whose nearest integers are one and the same, that one is drawn. -/
theorem randint_of_nearest (hlow : IsWhole low j) (hhigh : IsWhole high k) {n : Int64} (hj : nearestInt64 j = n.toInt)
    (hk : nearestInt64 k = n.toInt) (thrown : Nat) : randint thrown [low, high] = .ok (.int n) := by
  obtain ⟨m, hm, hleast, hgreatest⟩ := exists_randint hlow hhigh (by omega) thrown
  obtain rfl : m = n := Int64.toInt_inj.1 (by omega)
  exact hm

/-- From the range between two whole numbers an integer is drawn that lies in it, and every such integer may be. A range
in which no integer of 64 bits lies is refused, but for one that lies beyond an end of them. From that the end is
drawn. -/
theorem draws_randint (hlow : IsWhole low j) (hhigh : IsWhole high k) : Draws j k low high where
  inside := by
    rintro ⟨m, hm⟩ thrown
    have hle : nearestInt64 j ≤ nearestInt64 k := Int.le_trans hm.nearest.1 hm.nearest.2
    obtain ⟨n, hn, hleast, hgreatest⟩ := exists_randint hlow hhigh hle thrown
    exact ⟨n, hn, hm.of_nearest hleast hgreatest⟩
  every n hn := exists_thrown hlow hhigh hn.nearest.1 hn.nearest.2
  refused := by
    intro hnone hbeyond thrown
    rw [randint_eq hlow hhigh, if_pos (nearestInt64_lt_iff.2 ⟨lt_of_not_lies hnone hbeyond, hbeyond⟩)]
  above h := ⟨fun hlies => absurd hlies.1 (Int.not_le.2 h.1),
    randint_of_nearest hlow hhigh (nearestInt64_of_ge (Int.le_of_lt h.1)) (nearestInt64_of_ge h.2)⟩
  below h := ⟨fun hlies => absurd hlies.2 (Int.not_le.2 h.2),
    randint_of_nearest hlow hhigh (nearestInt64_of_le h.1) (nearestInt64_of_le (Int.le_of_lt h.2))⟩

namespace Sample

/-- The number `1e19`, which is more than any integer of 64 bits. -/
def distant : Value :=
  .float (.ofInt 10000000000000000000)

theorem isWhole_distant : IsWhole distant 10000000000000000000 :=
  Binary64.worth_ofInt_of_exact (by decide +kernel) (by decide +kernel)

end Sample

/-- From the range of which both ends are `1e19`, the greatest integer of 64 bits is drawn. -/
theorem draws_randint_distant :
    IsWhole Sample.distant 10000000000000000000 ∧
      ∀ thrown, randint thrown [Sample.distant, Sample.distant] = .ok (.int Int64.maxValue) :=
  ⟨Sample.isWhole_distant,
    ((draws_randint Sample.isWhole_distant Sample.isWhole_distant).above ⟨by decide, by decide⟩).2⟩

/-- What is drawn does not always lie in the range, and not every range without integers of 64 bits is refused. -/
theorem not_randint_lies :
    (¬ ∀ (low high : Value) (j k : Int) (thrown : Nat) (n : Int64), IsWhole low j → IsWhole high k →
      randint thrown [low, high] = .ok (.int n) → Lies j k n) ∧
    ¬ ∀ (low high : Value) (j k : Int) (thrown : Nat), IsWhole low j → IsWhole high k → (∀ n, ¬ Lies j k n) →
      ∃ message, randint thrown [low, high] = .error message := by
  have hdrawn : randint 0 [Sample.distant, Sample.distant] = .ok (.int Int64.maxValue) :=
    randint_of_nearest Sample.isWhole_distant Sample.isWhole_distant (by decide) (by decide) 0
  have hnone : ∀ n, ¬ Lies 10000000000000000000 10000000000000000000 n := by
    intro n h
    have hmax := n.toInt_le
    have := toInt_maxValue
    unfold Lies at h
    omega
  constructor
  · intro hall
    exact hnone _ (hall _ _ _ _ _ _ Sample.isWhole_distant Sample.isWhole_distant hdrawn)
  · intro hall
    obtain ⟨message, herror⟩ := hall _ _ _ _ 0 Sample.isWhole_distant Sample.isWhole_distant hnone
    rw [hdrawn] at herror
    cases herror

end Builtin

end Cadence
