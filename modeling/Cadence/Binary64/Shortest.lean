import Cadence.Binary64.Magnitude

/-!
# Shortest decimals

A magnitude is written with the fewest decimal digits that read back as it. For each count of digits the two
decimals around the magnitude on that grid are tried (`Magnitude.onGrid?`); the first grid with a decimal that
reads back wins, and of two such decimals the nearer one. A magnitude is also a decimal of its own, exactly
(`Magnitude.exact`), which stands in where no short grid has one. So what is written always reads back
(`Magnitude.reads_shortest`).
-/

namespace Cadence

/-- The number `digits * 10 ^ exponent`. -/
structure Decimal where
  /-- The digits, read as one natural number. -/
  digits : Nat
  /-- The power of ten that they are multiplied by. -/
  exponent : Int
deriving DecidableEq, Repr

/-- Which of two equally near decimals is taken. -/
inductive Tie
  /-- The greater one. -/
  | up
  /-- The one with an even last digit. -/
  | even
deriving DecidableEq, Repr

namespace Magnitude

/-- Whether a decimal reads back as `m`. -/
def reads (m : Magnitude) (d : Decimal) : Bool :=
  ofDecimal d.digits d.exponent = m

/-- The exponent of the power of ten that a positive magnitude's first digit counts. -/
def order (m : Magnitude) : Int :=
  if unitsPerOne ≤ m.units then (Nat.toDigits 10 (m.units / unitsPerOne)).length - 1
  else -(Nat.toDigits 10 ((unitsPerOne - 1) / m.units)).length

/-- The multiple of `10 ^ exponent` next to a magnitude that reads back as it. If both neighbours do, it is the
nearer one, and `tie` chooses between equally near ones. -/
def onGrid? (tie : Tie) (m : Magnitude) (exponent : Int) : Option Decimal :=
  let num := if 0 ≤ exponent then m.units else m.units * Nat.pow 10 (-exponent).toNat
  let den := if 0 ≤ exponent then unitsPerOne * Nat.pow 10 exponent.toNat else unitsPerOne
  let below : Decimal := ⟨num / den, exponent⟩
  let above : Decimal := ⟨num / den + 1, exponent⟩
  let takeBelow :=
    2 * (num % den) < den || 2 * (num % den) == den && tie == .even && below.digits % 2 == 0
  match m.reads below, m.reads above with
  | true, true => some (if takeBelow then below else above)
  | true, false => some below
  | false, true => some above
  | false, false => none

/-- A finite magnitude as a decimal, without rounding: `2 ^ -1074` is `5 ^ 1074 * 10 ^ -1074`. -/
def exact (m : Magnitude) : Decimal :=
  ⟨m.units * Nat.pow 5 unitPlaces, -unitPlaces⟩

/-- A decimal with the fewest digits that reads back as a positive finite magnitude. Seventeen digits are always
enough. -/
def shortest (tie : Tie) (m : Magnitude) : Decimal :=
  ((List.range 17).findSome? fun i : Nat => m.onGrid? tie (m.order - i)).getD m.exact

theorem reads_of_onGrid? {tie : Tie} {m : Magnitude} {exponent : Int} {d : Decimal}
    (h : m.onGrid? tie exponent = some d) : m.reads d = true := by
  unfold onGrid? at h
  generalize (if 0 ≤ exponent then m.units else m.units * Nat.pow 10 (-exponent).toNat) = num at h
  generalize (if 0 ≤ exponent then unitsPerOne * Nat.pow 10 exponent.toNat else unitsPerOne) = den at h
  dsimp only at h
  split at h
  · next below above =>
    have h := Option.some.inj h
    subst h
    split
    · exact below
    · exact above
  · next below _ => exact Option.some.inj h ▸ below
  · next _ above => exact Option.some.inj h ▸ above
  · exact absurd h (by simp)

theorem log2_le_log2 {a b : Nat} (ha : a ≠ 0) (h : a ≤ b) : a.log2 ≤ b.log2 :=
  (Nat.le_log2 (by omega)).2 (Nat.le_trans (Nat.log2_self_le ha) h)

private theorem ofDecimal_units_mul {m : Magnitude} {places : Nat} (h : m.rank ≠ 0) (hp : 0 < places)
    (hs : 3 * places ≤ (Nat.pow 5 places).log2 + 1100) (hu : unitsPerOne = Nat.pow 2 places) :
    ofDecimal (m.units * Nat.pow 5 places) (-places) = m := by
  have hf : 0 < Nat.pow 5 places := Nat.pow_pos (by decide)
  have hne : m.units * Nat.pow 5 places ≠ 0 := Nat.mul_ne_zero (Nat.ne_of_gt (units_pos h)) (Nat.ne_of_gt hf)
  have hle := log2_le_log2 (Nat.ne_of_gt hf) (Nat.le_mul_of_pos_left (Nat.pow 5 places) (units_pos h))
  have hten : Nat.pow 10 places = unitsPerOne * Nat.pow 5 places := hu ▸ Nat.mul_pow 2 5 places
  have hquotient := @nearest_mul_mul m.units 1 (unitsPerOne * Nat.pow 5 places) (Nat.mul_pos unitsPerOne_pos hf)
  rw [Nat.one_mul, nearest_units] at hquotient
  rw [ofDecimal_neg hne hp (by omega), hten, Nat.mul_assoc, Nat.mul_comm (Nat.pow 5 places)]
  exact hquotient

theorem reads_exact {m : Magnitude} (h : m.rank ≠ 0) : m.reads m.exact = true :=
  decide_eq_true
    (@ofDecimal_units_mul m unitPlaces h (by decide) (by decide +kernel) (by decide +kernel))

/-- The shortest decimal of a positive magnitude reads back as it. -/
theorem reads_shortest (tie : Tie) {m : Magnitude} (h : m.rank ≠ 0) : m.reads (m.shortest tie) = true := by
  unfold shortest
  cases hf : (List.range 17).findSome? fun i : Nat => m.onGrid? tie (m.order - i) with
  | none => exact reads_exact h
  | some d =>
    obtain ⟨i, _, hi⟩ := List.exists_of_findSome?_eq_some hf
    exact reads_of_onGrid? hi

end Magnitude

end Cadence
