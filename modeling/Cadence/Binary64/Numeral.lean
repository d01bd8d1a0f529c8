import Cadence.Binary64.Basic
import Cadence.Text.Blank

/-!
# Numerals

A numeral is digits, perhaps a point and more digits, and perhaps an exponent. `Numeral.scan` takes the longest
one at the front of a text; an `e` belongs to it only together with the digits behind it. A numeral without point
and exponent is an integer, any other is rounded once to a binary64 number.
-/

namespace Cadence

structure Numeral where
  /-- The digits before the point. -/
  whole : List Char
  /-- The digits behind the point, if there is a point. -/
  fraction : Option (List Char)
  /-- The power of ten, if one is written. -/
  exponent : Option Int
deriving DecidableEq, Repr

namespace Numeral

/-- Splits off the digits at the front of a text. -/
def scanDigits (s : List Char) : List Char × List Char :=
  (s.takeWhile Char.isDigit, s.dropWhile Char.isDigit)

/-- Splits off a sign at the front of a text; tells whether it is a minus. -/
def scanSign : List Char → Bool × List Char
  | '-' :: r => (true, r)
  | '+' :: r => (false, r)
  | r => (false, r)

/-- Splits off a sign if there may be one. -/
def scanSignIf (signed : Bool) (s : List Char) : Bool × List Char :=
  if signed then scanSign s else (false, s)

/-- Splits off a point and the digits behind it. -/
def scanFraction : List Char → Option (List Char) × List Char
  | '.' :: r => (some (scanDigits r).1, (scanDigits r).2)
  | r => (none, r)

/-- Splits off an exponent: `e` or `E`, perhaps a sign, and at least one digit. -/
def scanExponent : List Char → Option Int × List Char
  | [] => (none, [])
  | c :: r =>
    if c = 'e' ∨ c = 'E' then
      let (negative, r') := scanSign r
      let (digits, r'') := scanDigits r'
      if digits.isEmpty then (none, c :: r)
      else
        let power : Int := Nat.ofDigitChars 10 digits 0
        (some (if negative then -power else power), r'')
    else (none, c :: r)

/-- The longest numeral at the front of a text, and what follows it. The numeral may be without any digit. -/
def scan (s : List Char) : Numeral × List Char :=
  let (whole, r) := scanDigits s
  let (fraction, r') := scanFraction r
  let (exponent, r'') := scanExponent r'
  (⟨whole, fraction, exponent⟩, r'')

theorem length_scanDigits (s : List Char) : (scanDigits s).1.length + (scanDigits s).2.length = s.length := by
  rw [scanDigits, ← List.length_append, List.takeWhile_append_dropWhile]

theorem length_scanSign_le (s : List Char) : (scanSign s).2.length ≤ s.length := by
  unfold scanSign; split <;> simp

theorem length_scanSignIf_le (signed : Bool) (s : List Char) : (scanSignIf signed s).2.length ≤ s.length := by
  unfold scanSignIf
  split
  · exact length_scanSign_le s
  · exact Nat.le_refl _

theorem length_scanFraction (s : List Char) :
    (scanFraction s).2.length + ((scanFraction s).1.getD []).length ≤ s.length := by
  unfold scanFraction
  split
  · next r => have := length_scanDigits r; simp; omega
  · simp

theorem length_scanExponent_le (s : List Char) : (scanExponent s).2.length ≤ s.length := by
  unfold scanExponent
  split
  · simp
  · next c r =>
    have h1 := length_scanSign_le r
    have h2 := length_scanDigits (scanSign r).2
    split
    · dsimp only
      split
      · simp
      · simp only [List.length_cons]
        omega
    · simp

/-- Whether a numeral has a digit before or behind its point. -/
def hasDigits (n : Numeral) : Bool :=
  !n.whole.isEmpty || n.fraction.any (!·.isEmpty)

/-- A numeral with a digit takes something away from the text. -/
theorem length_scan_lt {s : List Char} (h : (scan s).1.hasDigits = true) : (scan s).2.length < s.length := by
  have h1 := length_scanDigits s
  have h2 := length_scanFraction (scanDigits s).2
  have h3 := length_scanExponent_le (scanFraction (scanDigits s).2).2
  simp only [scan, hasDigits, Bool.or_eq_true, Bool.not_eq_true', List.isEmpty_eq_false_iff] at h ⊢
  rcases h with h | h
  · have := List.length_pos_iff.2 h; omega
  · obtain ⟨d, hd, hne⟩ := Option.any_eq_true _ _ |>.1 h
    have : 0 < d.length := List.length_pos_iff.2 (by simpa using hne)
    simp only [hd, Option.getD_some] at h2
    omega

/-- Whether a numeral stands for an integer: it has neither point nor exponent. -/
def isInteger (n : Numeral) : Bool :=
  n.fraction.isNone && n.exponent.isNone

/-- The worth of the digits before the point. -/
def toNat (n : Numeral) : Nat :=
  Nat.ofDigitChars 10 n.whole 0

/-- The number nearest to a numeral. -/
def toBinary64 (negative : Bool) (n : Numeral) : Binary64 :=
  let fraction := n.fraction.getD []
  .signed negative
    (.ofDecimal (Nat.ofDigitChars 10 (n.whole ++ fraction) 0) (n.exponent.getD 0 - fraction.length))

end Numeral

/-- Reads a text as a number: blanks around it do not count, a sign may precede it, and `inf`, `infinity` and
`nan` are understood in capital and small letters. -/
def Binary64.ofChars? (s : List Char) : Option Binary64 :=
  let (negative, r) := Numeral.scanSign (trimBlanks s)
  let word := r.map Char.toLower
  if word = ['i', 'n', 'f'] ∨ word = ['i', 'n', 'f', 'i', 'n', 'i', 't', 'y'] then some (.infinity negative)
  else if word = ['n', 'a', 'n'] then some .nan
  else
    let (n, rest) := Numeral.scan r
    if rest.isEmpty && n.hasDigits then some (n.toBinary64 negative) else none

/-- Reads a text as a number that has no blanks around it. -/
def Binary64.ofUnpadded? (s : List Char) : Option Binary64 :=
  if trimBlanks s = s then ofChars? s else none

example : Binary64.ofChars? [' ', '1', 'e', '3', '\n'] = some (.ofInt 1000) := by decide +kernel
example : Binary64.ofChars? ['.', '5'] = some ((Binary64.ofInt 1).div (.ofInt 2)) := by decide +kernel
example : Binary64.ofChars? ['-', 'I', 'n', 'f'] = some (.infinity true) := by decide +kernel
example : [['1', 'e'], ['.'], ['1', '_', '0'], []].all fun s => (Binary64.ofChars? s).isNone := by decide +kernel

end Cadence
