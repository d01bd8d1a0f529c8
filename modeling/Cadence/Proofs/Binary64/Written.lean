import Cadence.Binary64.Numeral
import Cadence.Binary64.Layout
import Cadence.Proofs.Binary64.Decimal

/-!
# Written numbers are read back

The text of a magnitude is a numeral that is worth the magnitude, in whatever layout it is written
(`Layout.scan_magnitude`). The key fact is that both ways to write digits, positionally and with an exponent, keep what
the digits are worth (`Layout.Spells`), and that a numeral ends where no character that could go on with it follows
(`Numeral.Ends`).
-/

namespace Cadence

/-! ## The front of a text -/

theorem takeWhile_append_of_head {p : Char → Bool} {front rest : List Char} (hfront : ∀ c ∈ front, p c = true)
    (hrest : ∀ c ∈ rest.head?, p c = false) : (front ++ rest).takeWhile p = front := by
  rw [List.takeWhile_append_of_pos hfront]
  cases rest with
  | nil => rw [List.takeWhile_nil, List.append_nil]
  | cons c r => rw [List.takeWhile_cons_of_neg (Bool.not_eq_true _ ▸ hrest c rfl), List.append_nil]

theorem dropWhile_append_of_head {p : Char → Bool} {front rest : List Char} (hfront : ∀ c ∈ front, p c = true)
    (hrest : ∀ c ∈ rest.head?, p c = false) : (front ++ rest).dropWhile p = rest := by
  rw [List.dropWhile_append_of_pos hfront]
  cases rest with
  | nil => rfl
  | cons c r => rw [List.dropWhile_cons_of_neg (Bool.not_eq_true _ ▸ hrest c rfl)]

namespace Numeral

/-! ## Where a numeral ends -/

/-- What follows does not go on with a row of digits. -/
def EndsDigits (rest : List Char) : Prop :=
  ∀ c ∈ rest.head?, c.isDigit = false

/-- What follows does not go on with a numeral. -/
def Ends (rest : List Char) : Prop :=
  ∀ c ∈ rest.head?, c.isDigit = false ∧ c ≠ '.' ∧ c ≠ 'e' ∧ c ≠ 'E'

theorem Ends.endsDigits {rest : List Char} (h : Ends rest) : EndsDigits rest :=
  fun c hc => (h c hc).1

theorem endsDigits_cons {c : Char} (h : c.isDigit = false) (r : List Char) : EndsDigits (c :: r) := by
  rintro _ ⟨⟩
  exact h

theorem scanDigits_append {digits rest : List Char} (hd : ∀ c ∈ digits, c.isDigit = true) (hr : EndsDigits rest) :
    scanDigits (digits ++ rest) = (digits, rest) := by
  rw [scanDigits, takeWhile_append_of_head hd hr, dropWhile_append_of_head hd hr]

theorem scanFraction_point {digits rest : List Char} (hd : ∀ c ∈ digits, c.isDigit = true) (hr : EndsDigits rest) :
    scanFraction ('.' :: (digits ++ rest)) = (some digits, rest) := by
  rw [scanFraction, scanDigits_append hd hr]

theorem scanFraction_of_ne {rest : List Char} (h : rest.head? ≠ some '.') : scanFraction rest = (none, rest) := by
  unfold scanFraction
  split
  · exact absurd rfl h
  · rfl

theorem scanExponent_of_ends {rest : List Char} (h : Ends rest) : scanExponent rest = (none, rest) := by
  cases rest with
  | nil => rfl
  | cons c r =>
    obtain ⟨_, _, he, hE⟩ := h c rfl
    rw [scanExponent, if_neg (not_or.2 ⟨he, hE⟩)]

theorem isDigit_of_mem_toDigits {n : Nat} {c : Char} (h : c ∈ Nat.toDigits 10 n) : c.isDigit = true :=
  Nat.isDigit_of_mem_toDigits (by decide) (by decide) h

theorem scanSign_of_isDigit {c : Char} (h : c.isDigit = true) (r : List Char) :
    scanSign (c :: r) = (false, c :: r) := by
  unfold scanSign
  split
  · next heq =>
    injection heq with hc _
    rw [hc] at h
    exact absurd h (by decide)
  · next heq =>
    injection heq with hc _
    rw [hc] at h
    exact absurd h (by decide)
  · rfl

private theorem scanSign_toDigits (n : Nat) (rest : List Char) :
    scanSign (Nat.toDigits 10 n ++ rest) = (false, Nat.toDigits 10 n ++ rest) := by
  cases h : Nat.toDigits 10 n with
  | nil => exact absurd h Nat.toDigits_ne_nil
  | cons c r => exact scanSign_of_isDigit (isDigit_of_mem_toDigits (h ▸ List.mem_cons_self)) _

private theorem scanExponent_signed {sign rest : List Char} {negative : Bool} {n : Nat} (hr : EndsDigits rest)
    (hsign : scanSign (sign ++ (Nat.toDigits 10 n ++ rest)) = (negative, Nat.toDigits 10 n ++ rest)) :
    scanExponent ('e' :: (sign ++ (Nat.toDigits 10 n ++ rest))) = (some (if negative then -(n : Int) else n), rest) := by
  have hdigits := scanDigits_append (fun _ => isDigit_of_mem_toDigits (n := n)) hr
  have hempty : (Nat.toDigits 10 n).isEmpty = false := List.isEmpty_eq_false_iff.2 Nat.toDigits_ne_nil
  simp only [scanExponent, if_pos (Or.inl trivial), hsign, hdigits, hempty, Bool.false_eq_true, if_false,
    Nat.ofDigitChars_ten_toDigits]

/-- An exponent is read as the number that it was written for. -/
theorem scanExponent_written (plus : Bool) (order : Int) {rest : List Char} (hr : EndsDigits rest) :
    scanExponent ('e' :: ((if order < 0 then ['-'] else if plus then ['+'] else [])
        ++ (Nat.toDigits 10 order.natAbs ++ rest))) = (some order, rest) := by
  have hminus : scanSign (['-'] ++ (Nat.toDigits 10 order.natAbs ++ rest))
      = (true, Nat.toDigits 10 order.natAbs ++ rest) := rfl
  have hplus : scanSign (['+'] ++ (Nat.toDigits 10 order.natAbs ++ rest))
      = (false, Nat.toDigits 10 order.natAbs ++ rest) := rfl
  have hnone : scanSign ([] ++ (Nat.toDigits 10 order.natAbs ++ rest))
      = (false, Nat.toDigits 10 order.natAbs ++ rest) := scanSign_toDigits _ _
  by_cases hneg : order < 0
  · have habs : -(order.natAbs : Int) = order := by omega
    rw [if_pos hneg, scanExponent_signed hr hminus, if_pos rfl, habs]
  · have habs : (order.natAbs : Int) = order := by omega
    rw [if_neg hneg]
    cases plus with
    | true => rw [if_pos rfl, scanExponent_signed hr hplus, if_neg (by decide), habs]
    | false => rw [if_neg (by decide), scanExponent_signed hr hnone, if_neg (by decide), habs]

theorem scan_eq {s whole r r' r'' : List Char} {fraction : Option (List Char)} {exponent : Option Int}
    (hwhole : scanDigits s = (whole, r)) (hfraction : scanFraction r = (fraction, r'))
    (hexponent : scanExponent r' = (exponent, r'')) : scan s = (⟨whole, fraction, exponent⟩, r'') := by
  simp only [scan, hwhole, hfraction, hexponent]

/-- A numeral that begins with a digit, and is worth `m` with either sign. -/
structure Worth (n : Numeral) (m : Magnitude) : Prop where
  whole_ne_nil : n.whole ≠ []
  toBinary64 : ∀ negative, n.toBinary64 negative = .signed negative m

theorem worth_of_ofDecimal {whole : List Char} {fraction : Option (List Char)} {exponent : Option Int} {m : Magnitude}
    (hne : whole ≠ []) (h : Magnitude.ofDecimal (Nat.ofDigitChars 10 (whole ++ fraction.getD []) 0)
      (exponent.getD 0 - (fraction.getD []).length) = m) : Worth ⟨whole, fraction, exponent⟩ m :=
  ⟨hne, fun negative => congrArg (Binary64.signed negative) h⟩

end Numeral

/-! ## Digits and what they are worth -/

open Numeral

/-- Some digits, the first of which counts `10 ^ order`, are worth `m`. -/
structure Layout.Spells (digits : List Char) (order : Int) (m : Magnitude) : Prop where
  ne_nil : digits ≠ []
  isDigit : ∀ c ∈ digits, c.isDigit = true
  worth : Magnitude.ofDecimal (Nat.ofDigitChars 10 digits 0) (order + 1 - digits.length) = m

namespace Layout

theorem ofDigitChars_append_zeros (digits : List Char) (zeros : Nat) :
    Nat.ofDigitChars 10 (digits ++ List.replicate zeros '0') 0
      = Nat.ofDigitChars 10 digits 0 * Nat.pow 10 zeros := by
  rw [Nat.ofDigitChars_append, Nat.ofDigitChars_replicate_zero, Nat.mul_comm]
  rfl

private theorem eq_append_zeros (written : List Char) :
    written = (written.reverse.dropWhile (· == '0')).reverse
      ++ List.replicate (written.reverse.takeWhile (· == '0')).length '0' := by
  have hzeros : written.reverse.takeWhile (· == '0')
      = List.replicate (written.reverse.takeWhile (· == '0')).length '0' := by
    rw [List.eq_replicate_iff]
    refine ⟨rfl, ?_⟩
    intro c hc
    exact beq_iff_eq.1 (List.all_eq_true.1 List.all_takeWhile c hc)
  generalize (written.reverse.takeWhile (· == '0')).length = zeros at hzeros
  rw [← List.reverse_replicate, ← hzeros, ← List.reverse_append, List.takeWhile_append_dropWhile,
    List.reverse_reverse]

/-- The digits of a shortest decimal, without the zeros at their end, spell the magnitude. -/
theorem spells_shortest (tie : Tie) {m : Magnitude} (h : m.rank ≠ 0) :
    Spells ((Nat.toDigits 10 (m.shortest tie).digits).reverse.dropWhile (· == '0')).reverse
      ((m.shortest tie).exponent + (Nat.toDigits 10 (m.shortest tie).digits).length - 1) m := by
  have hreads : Magnitude.ofDecimal (m.shortest tie).digits (m.shortest tie).exponent = m :=
    of_decide_eq_true (Magnitude.reads_shortest tie h)
  generalize m.shortest tie = d at hreads
  have hzeros := eq_append_zeros (Nat.toDigits 10 d.digits)
  generalize hdigits : ((Nat.toDigits 10 d.digits).reverse.dropWhile (· == '0')).reverse = digits at hzeros
  generalize ((Nat.toDigits 10 d.digits).reverse.takeWhile (· == '0')).length = zeros at hzeros
  -- the zeros count as powers of ten instead
  have hworth : d.digits = Nat.ofDigitChars 10 digits 0 * Nat.pow 10 zeros := by
    rw [← ofDigitChars_append_zeros, ← hzeros, Nat.ofDigitChars_ten_toDigits]
  have hlength : (Nat.toDigits 10 d.digits).length = digits.length + zeros := by
    rw [hzeros, List.length_append, List.length_replicate]
  constructor
  · rintro rfl
    have hzero : d.digits = 0 := by
      rw [hworth, Nat.ofDigitChars_nil, Nat.zero_mul]
    rw [hzero, Magnitude.ofDecimal_zero] at hreads
    exact h (congrArg Magnitude.rank hreads.symm)
  · intro c hc
    apply isDigit_of_mem_toDigits (n := d.digits)
    rw [hzeros]
    exact List.mem_append_left _ hc
  · rw [hworth, Magnitude.ofDecimal_mul_pow] at hreads
    rw [hlength, ← hreads]
    congr 1
    omega

/-! ## The two ways to write digits -/

/-- The text of a magnitude goes on, up to `rest`, as a numeral of that worth; it is no integer if a fraction is
written. -/
def Written (layout : Layout) (m : Magnitude) (text rest : List Char) : Prop :=
  ∃ n, scan (text ++ rest) = (n, rest) ∧ n.Worth m ∧ (layout.fraction = true → n.isInteger = false)

variable (layout : Layout) {digits : List Char} {order : Int} {m : Magnitude} {rest : List Char}

private theorem head?_of_ends (hr : Ends rest) : rest.head? ≠ some '.' := fun h =>
  (hr '.' h).2.1 rfl

/-- Digits on both sides of a point. -/
private theorem written_pointed {whole fraction : List Char} (hne : whole ≠ [])
    (hwhole : ∀ c ∈ whole, c.isDigit = true) (hfraction : ∀ c ∈ fraction, c.isDigit = true)
    (hworth : Magnitude.ofDecimal (Nat.ofDigitChars 10 (whole ++ fraction) 0) (-(fraction.length : Int)) = m)
    (hr : Ends rest) : layout.Written m (whole ++ '.' :: fraction) rest := by
  have hscan : scan (whole ++ '.' :: fraction ++ rest) = (⟨whole, some fraction, none⟩, rest) := by
    refine scan_eq (r := '.' :: (fraction ++ rest)) ?_ (scanFraction_point hfraction hr.endsDigits)
      (scanExponent_of_ends hr)
    rw [List.append_assoc]
    exact scanDigits_append hwhole (endsDigits_cons (by decide) _)
  refine ⟨_, hscan, worth_of_ofDecimal hne ?_, fun _ => rfl⟩
  rw [Option.getD_some, Option.getD_none, Int.zero_sub]
  exact hworth

private theorem isDigit_of_mem_replicate {zeros : Nat} {c : Char} (h : c ∈ List.replicate zeros '0') :
    c.isDigit = true := by
  rw [List.eq_of_mem_replicate h]
  rfl

private theorem written_below_one (h : Spells digits order m) (hneg : order < 0) (hr : Ends rest) :
    layout.Written m (['0', '.'] ++ List.replicate (-order - 1).toNat '0' ++ digits) rest := by
  generalize hzeros : (-order - 1).toNat = zeros
  have htext : ['0', '.'] ++ List.replicate zeros '0' ++ digits
      = ['0'] ++ '.' :: (List.replicate zeros '0' ++ digits) := rfl
  have hvalue : Nat.ofDigitChars 10 (['0'] ++ (List.replicate zeros '0' ++ digits)) 0
      = Nat.ofDigitChars 10 digits 0 := by
    rw [List.singleton_append, Nat.ofDigitChars_cons, Nat.ofDigitChars_append, Nat.ofDigitChars_replicate_zero]
    rfl
  rw [htext]
  refine layout.written_pointed (List.cons_ne_nil _ _) (List.forall_mem_singleton.2 rfl) ?_ ?_ hr
  · intro c hc
    rcases List.mem_append.1 hc with hc | hc
    · exact isDigit_of_mem_replicate hc
    · exact h.isDigit c hc
  · rw [hvalue, ← h.worth]
    congr 1
    simp only [List.length_append, List.length_replicate]
    omega

private theorem written_filled (h : Spells digits order m) (hneg : ¬order < 0)
    (hle : digits.length ≤ order.toNat + 1) (hr : Ends rest) :
    layout.Written m (digits ++ List.replicate (order.toNat + 1 - digits.length) '0'
      ++ if layout.fraction then ['.', '0'] else []) rest := by
  generalize hzeros : order.toNat + 1 - digits.length = zeros
  have hall : ∀ c ∈ digits ++ List.replicate zeros '0', c.isDigit = true := by
    intro c hc
    rcases List.mem_append.1 hc with hc | hc
    · exact h.isDigit c hc
    · exact isDigit_of_mem_replicate hc
  have hne : digits ++ List.replicate zeros '0' ≠ [] := fun hnil => h.ne_nil (List.append_eq_nil_iff.1 hnil).1
  cases hfraction : layout.fraction with
  | true =>
    rw [if_pos rfl]
    refine layout.written_pointed hne hall (List.forall_mem_singleton.2 rfl) ?_ hr
    rw [List.append_assoc, ← List.replicate_succ', ofDigitChars_append_zeros, Magnitude.ofDecimal_mul_pow, ← h.worth]
    congr 1
    simp only [List.length_singleton]
    omega
  | false =>
    have hscan : scan (digits ++ List.replicate zeros '0' ++ [] ++ rest)
        = (⟨digits ++ List.replicate zeros '0', none, none⟩, rest) := by
      rw [List.append_nil]
      exact scan_eq (scanDigits_append hall hr.endsDigits) (scanFraction_of_ne (head?_of_ends hr))
        (scanExponent_of_ends hr)
    rw [if_neg Bool.false_ne_true]
    refine ⟨_, hscan, worth_of_ofDecimal hne ?_, fun h => absurd (hfraction.symm.trans h) (by decide)⟩
    rw [Option.getD_none, List.append_nil, ofDigitChars_append_zeros, Magnitude.ofDecimal_mul_pow, ← h.worth]
    congr 1
    simp only [Option.getD_none, List.length_nil]
    omega

private theorem written_among (h : Spells digits order m) (hneg : ¬order < 0)
    (hle : ¬digits.length ≤ order.toNat + 1) (hr : Ends rest) :
    layout.Written m (digits.take (order.toNat + 1) ++ '.' :: digits.drop (order.toNat + 1)) rest := by
  refine layout.written_pointed ?_ ?_ ?_ ?_ hr
  · intro hnil
    rcases List.take_eq_nil_iff.1 hnil with hnone | hnone
    · omega
    · exact h.ne_nil hnone
  · exact fun c hc => h.isDigit c (List.mem_of_mem_take hc)
  · exact fun c hc => h.isDigit c (List.mem_of_mem_drop hc)
  · rw [List.take_append_drop, ← h.worth, List.length_drop]
    congr 1
    omega

theorem written_spread (h : Spells digits order m) (hr : Ends rest) :
    layout.Written m (layout.spread digits order) rest := by
  unfold spread
  by_cases hneg : order < 0
  · rw [if_pos hneg]
    exact layout.written_below_one h hneg hr
  · rw [if_neg hneg]
    dsimp only
    by_cases hle : digits.length ≤ order.toNat + 1
    · rw [if_pos hle]
      exact layout.written_filled h hneg hle hr
    · rw [if_neg hle]
      exact layout.written_among h hneg hle hr

theorem written_scientific (h : Spells digits order m) (hr : Ends rest) :
    layout.Written m (layout.scientific digits order) rest := by
  obtain ⟨hne, hdigits, hworth⟩ := h
  obtain ⟨first, others, rfl⟩ := List.exists_cons_of_ne_nil hne
  have hfirst : ∀ c ∈ [first], c.isDigit = true := fun c hc =>
    hdigits c (List.mem_singleton.1 hc ▸ List.mem_cons_self)
  have hothers : ∀ c ∈ others, c.isDigit = true := fun c hc => hdigits c (List.mem_cons_of_mem first hc)
  have hexponent := scanExponent_written layout.plus order hr.endsDigits
  unfold scientific
  dsimp only
  generalize (if order < 0 then ['-'] else if layout.plus = true then ['+'] else []) = sign at hexponent
  by_cases hone : (first :: others).length ≤ 1
  · -- a single digit is written without a point
    have hnil : others = [] := by
      cases others with
      | nil => rfl
      | cons c r => simp at hone
    subst hnil
    have hscan : scan ([first] ++ 'e' :: sign ++ Nat.toDigits 10 order.natAbs ++ rest)
        = (⟨[first], none, some order⟩, rest) := by
      refine scan_eq (r := 'e' :: (sign ++ (Nat.toDigits 10 order.natAbs ++ rest))) ?_
        (scanFraction_of_ne (by simp)) hexponent
      rw [List.append_assoc, List.append_assoc]
      exact scanDigits_append hfirst (endsDigits_cons (by decide) _)
    refine ⟨_, hscan, worth_of_ofDecimal (by simp) ?_, fun _ => rfl⟩
    rw [Option.getD_none, List.append_nil, ← hworth]
    congr 1
    simp only [Option.getD_some, List.length_nil, List.length_singleton]
    omega
  · rw [if_neg hone]
    have hscan : scan ((first :: others).take 1 ++ '.' :: (first :: others).drop 1 ++ 'e' :: sign
          ++ Nat.toDigits 10 order.natAbs ++ rest) = (⟨[first], some others, some order⟩, rest) := by
      refine scan_eq (r := '.' :: (others ++ 'e' :: (sign ++ (Nat.toDigits 10 order.natAbs ++ rest)))) ?_
        (scanFraction_point hothers (endsDigits_cons (by decide) _)) hexponent
      simp only [List.take_succ_cons, List.take_zero, List.drop_succ_cons, List.drop_zero, List.append_assoc,
        List.cons_append]
      exact scanDigits_append hfirst (endsDigits_cons (by decide) _)
    refine ⟨_, hscan, worth_of_ofDecimal (by simp) ?_, fun _ => rfl⟩
    rw [← hworth]
    congr 1
    simp only [Option.getD_some, List.length_cons]
    omega

/-- The text of a magnitude is a numeral that is worth it. -/
theorem scan_magnitude (m : Magnitude) (hr : Ends rest) : layout.Written m (layout.magnitude m) rest := by
  unfold magnitude
  by_cases hzero : m.rank = 0
  · rw [if_pos hzero]
    have hm : m = .zero := by
      obtain ⟨rank, _⟩ := m
      cases hzero
      rfl
    refine layout.written_spread ⟨List.cons_ne_nil _ _, List.forall_mem_singleton.2 rfl, ?_⟩ hr
    rw [hm]
    exact Magnitude.ofDecimal_zero _
  · rw [if_neg hzero]
    have hspells := spells_shortest layout.tie hzero
    dsimp only
    split
    · exact layout.written_spread hspells hr
    · exact layout.written_scientific hspells hr

end Layout

/-- A numeral that is worth something begins with a digit. -/
theorem Layout.exists_digit (layout : Layout) (m : Magnitude) :
    ∃ c r, layout.magnitude m = c :: r ∧ c.isDigit = true := by
  have hends : Numeral.Ends [] := by
    rintro _ ⟨⟩
  obtain ⟨n, hscan, hworth, _⟩ := layout.scan_magnitude m hends
  rw [List.append_nil] at hscan
  have hwhole : (layout.magnitude m).takeWhile Char.isDigit = n.whole := congrArg (·.1.whole) hscan
  cases h : layout.magnitude m with
  | nil =>
    rw [h] at hwhole
    exact absurd hwhole.symm hworth.whole_ne_nil
  | cons c r =>
    refine ⟨c, r, rfl, ?_⟩
    by_cases hc : c.isDigit = true
    · exact hc
    · rw [h, List.takeWhile_cons_of_neg hc] at hwhole
      exact absurd hwhole.symm hworth.whole_ne_nil

theorem exists_digit_toDigits (n : Nat) : ∃ c r, Nat.toDigits 10 n = c :: r ∧ c.isDigit = true := by
  obtain ⟨c, r, h⟩ := List.exists_cons_of_ne_nil (Nat.toDigits_ne_nil (n := n) (b := 10))
  exact ⟨c, r, h, Numeral.isDigit_of_mem_toDigits (h ▸ List.mem_cons_self)⟩

end Cadence
