import Cadence.Proofs.Binary64.Whole
import Cadence.Proofs.Bound.Host

/-!
# The numbers of passes that calls give

The value of a call for a number of passes is read as a binary64 number, and that number as a whole one. So the number of
passes is the whole number that was given (`Bound.Call.count`), but for two kinds of values. An integer of more than 53
binary digits is rounded to 53 (`Bound.Call.passes_int`), and `2 ^ 64`, which is one more than the greatest number of 64
bits, passes for that number (`Bound.Call.passes_of_isBeyond`).
-/

namespace Cadence

variable {σ : Type}

namespace Value

/-- The whole number that a value counts as, if it counts as one; an integer counts with all its digits. -/
def whole? : Value → Option Int
  | int i => some i.toInt
  | boolean b => some (if b then 1 else 0)
  | v => v.toBinary64?.bind fun x => if x.isWhole then some x.truncate else none

/-- An integer that is more than its first 53 binary digits. -/
def LosesDigits : Value → Prop
  | int i => 1 ≤ i.toInt ∧ ¬ Nat.pow 2 (i.toInt.natAbs.log2 - 52) ∣ i.toInt.natAbs
  | _ => False

instance : DecidablePred LosesDigits
  | int i => inferInstanceAs
      (Decidable (1 ≤ i.toInt ∧ ¬ Nat.pow 2 (i.toInt.natAbs.log2 - 52) ∣ i.toInt.natAbs))
  | null | boolean _ | float _ | string _ | list _ | map _ => inferInstanceAs (Decidable False)

/-- A value that counts as one more than the greatest number of 64 bits. -/
def IsBeyond (v : Value) : Prop :=
  v.whole? = some (UInt64.size : Int)

theorem bind_whole_eq_some_iff {number? : Option Binary64} {k : Int} :
    (number?.bind fun x => if x.isWhole then some x.truncate else none) = some k
      ↔ ∃ x, number? = some x ∧ x.Worth k := by
  rw [Option.bind_eq_some_iff]
  refine exists_congr fun x => and_congr_right fun _ => ?_
  split
  · next hwhole =>
    obtain ⟨j, hj⟩ := Binary64.isWhole_iff.1 hwhole
    rw [Option.some_inj, hj.truncate]
    constructor
    · rintro rfl
      exact hj
    · exact fun hk => hj.truncate.symm.trans hk.truncate
  · next hwhole =>
    simp only [reduceCtorEq, false_iff]
    exact fun hk => hwhole (Binary64.isWhole_iff.2 ⟨k, hk⟩)

/-- What is no integer counts as a whole number exactly if the binary64 number that it counts as is worth it. -/
theorem whole?_eq_some_iff {v : Value} {k : Int} (hv : ∀ i, v ≠ int i) :
    v.whole? = some k ↔ ∃ x, v.toBinary64? = some x ∧ x.Worth k := by
  have hsame : v.whole? = v.toBinary64?.bind fun x => if x.isWhole then some x.truncate else none := by
    cases v with
    | int i => exact absurd rfl (hv i)
    | boolean b => cases b <;> decide +kernel
    | null | float _ | string _ | list _ | map _ => rfl
  rw [hsame]
  exact bind_whole_eq_some_iff

/-- What is no integer counts as no number, as a number that is not whole, or as a whole number. -/
theorem number_cases {v : Value} (hv : ∀ i, v ≠ int i) :
    (v.toBinary64? = none ∧ v.whole? = none) ∨
    (∃ x, v.toBinary64? = some x ∧ x.isWhole = false ∧ v.whole? = none) ∨
    ∃ x k, v.toBinary64? = some x ∧ x.Worth k ∧ v.whole? = some k := by
  have hwhole := fun k => @whole?_eq_some_iff v k hv
  cases hx : v.toBinary64? with
  | none =>
    refine .inl ⟨rfl, Option.eq_none_iff_forall_ne_some.2 fun k hk => ?_⟩
    obtain ⟨x, hsome, _⟩ := (hwhole k).1 hk
    rw [hx] at hsome
    cases hsome
  | some x =>
    cases hk : v.whole? with
    | none =>
      refine .inr (.inl ⟨x, rfl, Bool.eq_false_iff.2 fun h => ?_, rfl⟩)
      obtain ⟨k, hworth⟩ := Binary64.isWhole_iff.1 h
      rw [(hwhole k).2 ⟨x, hx, hworth⟩] at hk
      cases hk
    | some k =>
      obtain ⟨y, hy, hworth⟩ := (hwhole k).1 hk
      obtain rfl : x = y := Option.some.inj (hx.symm.trans hy)
      exact .inr (.inr ⟨x, k, rfl, hworth, rfl⟩)

theorem not_losesDigits {v : Value} (hv : ∀ i, v ≠ int i) : ¬ v.LosesDigits := by
  intro hlost
  cases v with
  | int i => exact hv i rfl
  | null | boolean _ | float _ | string _ | list _ | map _ => exact hlost

theorem not_isBeyond_of_none {v : Value} (h : v.whole? = none) : ¬ v.IsBeyond := by
  rw [IsBeyond, h]
  exact Option.some_ne_none _ ∘ Eq.symm

end Value

namespace Bound

/-- The number of passes that a value is as it stands: a whole number from one up to the greatest number of 64 bits. -/
def Call.count (c : Call σ) (value : Value) : Except Error UInt64 :=
  if value.toBinary64?.isNone then .error (.notAnInterval c.name value)
  else match value.whole? with
    | some k =>
      if 1 ≤ k ∧ k < UInt64.size then .ok (UInt64.ofNat k.toNat) else .error (.invalidPasses c.text value)
    | none => .error (.invalidPasses c.text value)

namespace Call

variable {c : Call σ} {value : Value} {x : Binary64} {k : Int}

theorem passes_of_none (h : value.toBinary64? = none) : c.passes value = .error (.notAnInterval c.name value) := by
  rw [passes, h]

theorem count_of_none (h : value.toBinary64? = none) : c.count value = .error (.notAnInterval c.name value) := by
  simp only [count, h, Option.isNone_none, if_true]

theorem passes_of_not_isWhole (h : value.toBinary64? = some x) (hx : x.isWhole = false) :
    c.passes value = .error (.invalidPasses c.text value) := by
  simp only [passes, h, hx, Bool.false_and, Bool.false_eq_true, if_false]

/-- A value that counts as a number worth a whole number gives that many passes if there are such numbers of passes,
and the greatest one for one more. -/
theorem passes_of_worth (h : value.toBinary64? = some x) (hx : x.Worth k) :
    c.passes value = if 1 ≤ k ∧ k ≤ UInt64.size then .ok (UInt64.ofNat (min (UInt64.size - 1 : Int) k).toNat)
      else .error (.invalidPasses c.text value) := by
  have hone : (Binary64.ofInt 1).Worth 1 := Binary64.worth_ofInt_of_exact (by decide) (by decide +kernel)
  have hsize : (Binary64.ofInt UInt64.size).Worth UInt64.size :=
    Binary64.worth_ofInt_of_exact (by decide +kernel) (by decide +kernel)
  have hwhole : x.isWhole = true := Binary64.isWhole_iff.2 ⟨k, hx⟩
  simp only [passes, h, hwhole, Bool.true_and, Bool.and_eq_true, hone.le_iff hx, hx.le_iff hsize, hx.clamp]
  split
  · next hrange =>
    have hleast : max 0 (min (UInt64.size - 1 : Int) k) = min (UInt64.size - 1 : Int) k := by
      have : (0 : Int) < UInt64.size := by decide
      omega
    rw [hleast]
  · rfl

theorem count_of_not_whole (h : value.toBinary64? = some x) (hx : value.whole? = none) :
    c.count value = .error (.invalidPasses c.text value) := by
  simp only [count, h, hx, Option.isNone_some, Bool.false_eq_true, if_false]

theorem count_of_whole (h : value.toBinary64? = some x) (hx : value.whole? = some k) :
    c.count value = if 1 ≤ k ∧ k < UInt64.size then .ok (UInt64.ofNat k.toNat)
      else .error (.invalidPasses c.text value) := by
  simp only [count, h, hx, Option.isNone_some, Bool.false_eq_true, if_false]

private theorem natAbs_toInt_le (i : Int64) : i.toInt.natAbs ≤ Nat.pow 2 63 := by
  have hmin := i.le_toInt
  have hmax := i.toInt_lt
  show i.toInt.natAbs ≤ 9223372036854775808
  omega

private theorem lt_size_of_le_half {n : Nat} (h : n ≤ Nat.pow 2 63) : n < UInt64.size :=
  Nat.lt_of_le_of_lt h (by decide)

private theorem roundedWhole_toInt_le (i : Int64) : Binary64.roundedWhole i.toInt.natAbs ≤ Nat.pow 2 63 :=
  Binary64.roundedWhole_le_pow (natAbs_toInt_le i)

/-- An integer gives as many passes as its first 53 binary digits, rounded, and zeros behind them. -/
theorem passes_int {i : Int64} : c.passes (.int i) = if 1 ≤ i.toInt then
      .ok (UInt64.ofNat (Binary64.roundedWhole i.toInt.natAbs)) else .error (.invalidPasses c.text (.int i)) := by
  have hrounded := lt_size_of_le_half (roundedWhole_toInt_le i)
  rw [passes_of_worth rfl (Binary64.worth_ofInt (Nat.le_of_lt (lt_size_of_le_half (natAbs_toInt_le i))))]
  -- rounding makes no zero of a positive integer, and nothing positive of any other
  by_cases hpos : 1 ≤ i.toInt
  · have hone : 1 ≤ Binary64.roundedWhole i.toInt.natAbs := Binary64.one_le_roundedWhole (by omega)
    rw [Int.sign_eq_one_of_pos (by omega), Int.one_mul, if_pos (by omega), if_pos hpos]
    congr
    omega
  · have hsign : i.toInt.sign * Binary64.roundedWhole i.toInt.natAbs ≤ 0 :=
      Int.mul_nonpos_of_nonpos_of_nonneg (Int.sign_nonpos_iff.2 (by omega)) (Int.natCast_nonneg _)
    rw [if_neg (by omega), if_neg hpos]

theorem count_int {i : Int64} : c.count (.int i) = if 1 ≤ i.toInt then
      .ok (UInt64.ofNat i.toInt.natAbs) else .error (.invalidPasses c.text (.int i)) := by
  have hmax : i.toInt < UInt64.size := Int.lt_trans i.toInt_lt (by decide)
  rw [count_of_whole rfl rfl]
  by_cases hpos : 1 ≤ i.toInt
  · rw [if_pos ⟨hpos, hmax⟩, if_pos hpos]
    congr 2
    omega
  · rw [if_neg (fun h => hpos h.1), if_neg hpos]

/-- An integer gives as many passes as it says exactly if no digits are lost. -/
theorem passes_int_eq_count_iff {i : Int64} :
    c.passes (.int i) = c.count (.int i) ↔ ¬ (Value.int i).LosesDigits := by
  rw [passes_int, count_int, Value.LosesDigits, ← Binary64.roundedWhole_eq_iff]
  by_cases hpos : 1 ≤ i.toInt
  · rw [if_pos hpos, if_pos hpos, Except.ok.injEq]
    constructor
    · rintro heq ⟨_, hne⟩
      have htoNat := congrArg UInt64.toNat heq
      rw [UInt64.toNat_ofNat_of_lt' (lt_size_of_le_half (roundedWhole_toInt_le i)),
        UInt64.toNat_ofNat_of_lt' (lt_size_of_le_half (natAbs_toInt_le i))] at htoNat
      exact hne htoNat
    · intro hkept
      rw [Classical.not_not.1 fun hne => hkept ⟨hpos, hne⟩]
  · rw [if_neg hpos, if_neg hpos]
    exact iff_of_true rfl fun hlost => hpos hlost.1

theorem not_isBeyond_int (i : Int64) : ¬ (Value.int i).IsBeyond := by
  intro h
  have hsize : i.toInt = UInt64.size := Option.some.inj h
  have := lt_size_of_le_half (natAbs_toInt_le i)
  omega

/-- One more than the greatest number of 64 bits gives as many passes as that number. -/
theorem passes_of_isBeyond (h : value.IsBeyond) : c.passes value = .ok (UInt64.ofNat (UInt64.size - 1)) := by
  have hint : ∀ i, value ≠ .int i := by
    rintro i rfl
    exact not_isBeyond_int i h
  obtain ⟨x, hx, hworth⟩ := (Value.whole?_eq_some_iff hint).1 h
  rw [passes_of_worth hx hworth, if_pos (by decide)]
  rfl

/-- A whole number gives as many passes as it says, unless it is one more than the greatest number of passes. -/
theorem passes_eq_count_of_worth (h : value.toBinary64? = some x) (hx : x.Worth k) (hk : value.whole? = some k) :
    c.passes value = c.count value ↔ ¬ value.IsBeyond := by
  have hpos : (1 : Int) ≤ UInt64.size := by decide
  rw [passes_of_worth h hx, count_of_whole h hk, Value.IsBeyond, hk, Option.some_inj]
  by_cases hbeyond : k = UInt64.size
  · subst hbeyond
    rw [if_pos ⟨hpos, Int.le_refl _⟩, if_neg (fun h => Int.lt_irrefl _ h.2)]
    exact iff_of_false (fun heq => nomatch heq) fun hne => hne rfl
  · refine iff_of_true ?_ hbeyond
    by_cases hrange : 1 ≤ k ∧ k < UInt64.size
    · have hmin : min (UInt64.size - 1 : Int) k = k := by omega
      rw [if_pos ⟨hrange.1, Int.le_of_lt hrange.2⟩, if_pos hrange, hmin]
    · rw [if_neg (by omega), if_neg hrange]

/-- A value gives as many passes as it says, unless it loses digits or is one more than the greatest number of passes. -/
theorem passes_eq_count_iff : c.passes value = c.count value ↔ ¬ value.LosesDigits ∧ ¬ value.IsBeyond := by
  by_cases hint : ∃ i, value = .int i
  · obtain ⟨i, rfl⟩ := hint
    rw [passes_int_eq_count_iff]
    exact ⟨fun h => ⟨h, not_isBeyond_int i⟩, And.left⟩
  have hother : ∀ i, value ≠ .int i := fun i hi => hint ⟨i, hi⟩
  have hkeeps := Value.not_losesDigits hother
  rcases Value.number_cases hother with ⟨hnone, hk⟩ | ⟨x, hx, hfraction, hk⟩ | ⟨x, k, hx, hworth, hk⟩
  · rw [passes_of_none hnone, count_of_none hnone]
    exact iff_of_true rfl ⟨hkeeps, Value.not_isBeyond_of_none hk⟩
  · rw [passes_of_not_isWhole hx hfraction, count_of_not_whole hx hk]
    exact iff_of_true rfl ⟨hkeeps, Value.not_isBeyond_of_none hk⟩
  · rw [passes_eq_count_of_worth hx hworth hk, and_iff_right hkeeps]

end Call

end Bound

/-! ## Asking for a number of passes -/

theorem Repeat.bind_of_invoke {functions : Registry σ} {schedule : Schedule} {call : Call} {c : Bound.Call σ}
    {value : Value} {w w' : World σ} (hbound : call.bound functions functions = .ok c)
    (hvalue : c.invoke w = (.ok value, w')) :
    Repeat.bind .asking functions schedule (.call call) w = ((c.passes value).map Bound.Passes.times, w') := by
  simp only [Repeat.bind]
  have hfound : (Host.ofResult (call.bound functions functions) : Host σ _) w = (.ok c, w) := by
    rw [hbound]
    rfl
  rw [Host.bind_of_ok hfound, Host.bind_of_ok hvalue]
  cases hpasses : c.passes value with
  | error e => exact Host.bind_of_error rfl _
  | ok n => exact Host.bind_of_ok rfl _

theorem map_times_inj {r r' : Except Error UInt64} : r.map Bound.Passes.times = r'.map Bound.Passes.times ↔ r = r' := by
  refine ⟨fun h => ?_, congrArg _⟩
  rcases r with _ | _ <;> rcases r' with _ | _ <;> cases h <;> rfl

/-- A schedule whose number of passes is called for is gone through as often as the value says, unless that loses digits
or is one more than the greatest number of 64 bits. Then it is gone through as often as the digits that are kept say,
or the greatest number of times. -/
theorem Repeat.bind_eq_count_iff {functions : Registry σ} {schedule : Schedule} {call : Call} {c : Bound.Call σ}
    {value : Value} {w w' : World σ} (hbound : call.bound functions functions = .ok c)
    (hvalue : c.invoke w = (.ok value, w')) :
    (Repeat.bind .asking functions schedule (.call call) w = ((c.count value).map Bound.Passes.times, w')
      ↔ ¬ value.LosesDigits ∧ ¬ value.IsBeyond) ∧
    (∀ i, value = .int i → value.LosesDigits →
      Repeat.bind .asking functions schedule (.call call) w
        = (.ok (.times (UInt64.ofNat (Binary64.roundedWhole i.toInt.natAbs))), w')) ∧
    (value.IsBeyond →
      Repeat.bind .asking functions schedule (.call call) w = (.ok (.times (UInt64.ofNat (UInt64.size - 1))), w')) := by
  rw [Repeat.bind_of_invoke hbound hvalue]
  refine ⟨?_, ?_, ?_⟩
  · rw [Prod.mk.injEq, and_iff_left rfl, map_times_inj]
    exact Bound.Call.passes_eq_count_iff
  · rintro i rfl hlost
    rw [Bound.Call.passes_int, if_pos hlost.1]
    rfl
  · intro hbeyond
    rw [Bound.Call.passes_of_isBeyond hbeyond]
    rfl

namespace Sample

/-- A count that has one binary digit too many. -/
def manyTicks : World Nat :=
  ⟨9007199254740993, #[]⟩

/-- The same world after `tick()` gave the count. -/
def oneTickMore : World Nat :=
  ⟨9007199254740994, #[.called tick []]⟩

theorem invoke_manyTicks : tickCall.invoke manyTicks = (.ok (.int 9007199254740993), oneTickMore) :=
  rfl

end Sample

/-- Of the count that `tick()` gives the last digit is lost. -/
theorem Repeat.bind_eq_count_iff_tick :
    Repeat.bind .asking Sample.functions ⟨[], .call ⟨"tick", []⟩⟩ (.call ⟨"tick", []⟩) Sample.manyTicks
      = (.ok (.times 9007199254740992), Sample.oneTickMore) := by
  have hlost : (Value.int 9007199254740993).LosesDigits := by decide +kernel
  have hrounded : UInt64.ofNat (Binary64.roundedWhole (Int64.toInt 9007199254740993).natAbs) = 9007199254740992 := by
    decide +kernel
  rw [(Repeat.bind_eq_count_iff rfl Sample.invoke_manyTicks).2.1 _ rfl hlost, hrounded]

/-- Not every value is the number of passes that it says. -/
theorem Repeat.not_bind_eq_count :
    ¬ ∀ (functions : Registry Nat) (schedule : Schedule) (call : Call) (c : Bound.Call Nat) (value : Value)
        (w w' : World Nat), call.bound functions functions = .ok c → c.invoke w = (.ok value, w') →
      Repeat.bind .asking functions schedule (.call call) w = ((c.count value).map Bound.Passes.times, w') := by
  intro hall
  have hlost : (Value.int 9007199254740993).LosesDigits := by decide +kernel
  have hbind := hall Sample.functions ⟨[], .call ⟨"tick", []⟩⟩ ⟨"tick", []⟩ Sample.tickCall _ _ _ rfl
    Sample.invoke_manyTicks
  rw [Repeat.bind_of_invoke rfl Sample.invoke_manyTicks, Prod.mk.injEq, map_times_inj] at hbind
  exact (Bound.Call.passes_eq_count_iff.1 hbind.1).1 hlost

end Cadence
