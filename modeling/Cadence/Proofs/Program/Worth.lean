import Cadence.Proofs.Binary64.Rounding
import Cadence.Proofs.Program.Proper

/-!
# What is kept of a number

The program compares numbers as binary64 numbers. So of the worth of a number counts what is kept when it is rounded to
that of a binary64 number (`Number.kept_eq`). The order of worths is not turned around (`Number.kept_mono`), but
different worths may become one (`Number.Merges`); then one of the numbers is an integer that does not end in zeros
behind its first 53 binary digits (`Number.not_merges_of_keepsDigits`).
-/

namespace Cadence

namespace Number

/-- What a number is worth, in units of `2 ^ -1074`. -/
def worth : Number → Int
  | int i => i.toInt * unitsPerOne
  | float x => x.units

/-- What binary64 keeps of the worth of a number: of an integer the first 53 binary digits, rounded. -/
def kept : Number → Int
  | int i => i.toInt.sign * Binary64.roundedWhole i.toInt.natAbs * unitsPerOne
  | float x => x.units

/-- Different numbers of which the same is kept. -/
def Merges (a b : Number) : Prop :=
  a.worth ≠ b.worth ∧ a.kept = b.kept

/-- A number that has zeros behind its first 53 binary digits. -/
def KeepsDigits : Number → Prop
  | int i => Nat.pow 2 (i.toInt.natAbs.log2 - 52) ∣ i.toInt.natAbs
  | float _ => True

theorem worth_toBinary64_int (i : Int64) :
    (int i).toBinary64.Worth (i.toInt.sign * Binary64.roundedWhole i.toInt.natAbs) := by
  refine Binary64.worth_ofInt ?_
  have hmin := i.le_toInt
  have hmax := i.toInt_lt
  show i.toInt.natAbs ≤ 18446744073709551616
  omega

theorem units_toBinary64 (a : Number) : a.toBinary64.units = a.kept := by
  cases a with
  | int i => exact (worth_toBinary64_int i).units_eq
  | float x => rfl

theorem IsFinite.ne_nan {a : Number} (h : a.IsFinite) : a.toBinary64 ≠ .nan := by
  cases a with
  | int i => exact (worth_toBinary64_int i).ne_nan
  | float x =>
    rintro rfl
    exact Bool.false_ne_true h

/-- What is kept of a number is its worth, rounded to that of a binary64 number. -/
theorem kept_eq (a : Number) : a.kept = Binary64.roundedUnits a.worth := by
  cases a with
  | int i => exact (units_toBinary64 (int i)).symm.trans (Binary64.units_ofInt i.toInt)
  | float x => exact (Binary64.roundedUnits_units x).symm

/-- Of one worth, one thing is kept. -/
theorem kept_eq_of_worth_eq {a b : Number} (h : a.worth = b.worth) : a.kept = b.kept := by
  rw [kept_eq, kept_eq, h]

/-- Of a greater worth, no less is kept. -/
theorem kept_mono {a b : Number} (h : a.worth ≤ b.worth) : a.kept ≤ b.kept := by
  rw [kept_eq, kept_eq]
  exact Binary64.roundedUnits_mono h

theorem KeepsDigits.kept_eq {a : Number} (h : a.KeepsDigits) : a.kept = a.worth := by
  cases a with
  | int i => rw [kept, worth, Binary64.roundedWhole_eq_iff.2 h, Int.sign_mul_natAbs]
  | float x => rfl

theorem not_merges_of_keepsDigits {a b : Number} (ha : a.KeepsDigits) (hb : b.KeepsDigits) : ¬ a.Merges b := by
  rintro ⟨hworth, hkept⟩
  exact hworth (ha.kept_eq.symm.trans (hkept.trans hb.kept_eq))

end Number

end Cadence
