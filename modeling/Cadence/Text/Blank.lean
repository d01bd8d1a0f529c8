/-!
# Blank characters

A blank is a character with the Unicode property White_Space. Blanks may stand between any two tokens of a
program and around a number that is given as text. `skipBlanks` never makes a text longer
(`length_skipBlanks_le`), and what it leaves starts with no blank (`skipBlanks_head`).
-/

namespace Cadence

/-- The characters with the property White_Space, as ranges of code points with both ends included. -/
def blankRanges : List (Nat × Nat) :=
  [(0x09, 0x0D), (0x20, 0x20), (0x85, 0x85), (0xA0, 0xA0), (0x1680, 0x1680), (0x2000, 0x200A), (0x2028, 0x2029),
    (0x202F, 0x202F), (0x205F, 0x205F), (0x3000, 0x3000)]

def isBlank (c : Char) : Bool :=
  blankRanges.any fun range => range.1 ≤ c.toNat && c.toNat ≤ range.2

/-- A text without the blanks at its front. -/
def skipBlanks (s : List Char) : List Char :=
  s.dropWhile isBlank

/-- A text without the blanks at either end. -/
def trimBlanks (s : List Char) : List Char :=
  (skipBlanks (skipBlanks s).reverse).reverse

/-- No graphic character of ASCII is blank. -/
theorem isBlank_eq_false {c : Char} (h : 0x20 < c.toNat) (h' : c.toNat < 0x80) : isBlank c = false := by
  simp only [isBlank, blankRanges, List.any_cons, List.any_nil, Bool.or_eq_false_iff, Bool.and_eq_false_iff,
    decide_eq_false_iff_not, and_true]
  omega

theorem skipBlanks_cons {c : Char} (h : isBlank c = false) (r : List Char) : skipBlanks (c :: r) = c :: r := by
  rw [skipBlanks, List.dropWhile_cons_of_neg (Bool.not_eq_true _ ▸ h)]

theorem length_skipBlanks_le (s : List Char) : (skipBlanks s).length ≤ s.length :=
  (List.dropWhile_suffix isBlank).length_le

theorem skipBlanks_suffix (s : List Char) : skipBlanks s <:+ s :=
  List.dropWhile_suffix isBlank

theorem skipBlanks_head {s r : List Char} {c : Char} (h : skipBlanks s = c :: r) : isBlank c = false := by
  induction s with
  | nil => simp [skipBlanks] at h
  | cons d s ih =>
    by_cases hd : isBlank d = true
    · exact ih (by simpa [skipBlanks, List.dropWhile_cons, hd] using h)
    · have h' : d :: s = c :: r := by simpa [skipBlanks, List.dropWhile_cons, hd] using h
      injection h' with h1 _
      simpa [h1] using hd

example : [' ', '\t', '\n', '\r'].all isBlank = true := by decide
example : ['\u200b', '\ufeff', '\u180e', 'x'].any isBlank = false := by decide

end Cadence
