import Cadence.Binary64.Basic
import Cadence.Binary64.Shortest

/-!
# Written numbers

A number is written with its shortest digits, either positionally or with one digit before the point and a power
of ten behind it. What is left to choose (which magnitudes are written positionally, whether a whole number
keeps a fraction, the sign of the exponent, ties) is a `Layout`. There are three: `Layout.program` for the text
of programs and values, `Layout.plain` for reports and `Layout.json` for JSON texts.
-/

namespace Cadence

/-- The choices of a way to write numbers. -/
structure Layout where
  /-- Which orders of magnitude are written positionally. -/
  positional : Int → Bool
  /-- Whether a whole number that is written positionally ends in `.0`. -/
  fraction : Bool
  /-- Whether a positive exponent has a sign. -/
  plus : Bool
  /-- Which of two equally near shortest decimals is written. -/
  tie : Tie

namespace Layout

/-- Numbers in programs and values: positional from `0.0001` to below `10 ^ 16`, and never without a point or an
exponent. -/
def program : Layout := ⟨fun order => -4 ≤ order && order < 16, true, false, .up⟩

/-- Numbers in reports: always positional, whole numbers without a point. -/
def plain : Layout := ⟨fun _ => true, false, false, .up⟩

/-- Numbers in JSON texts: positional from `0.00001` to below `10 ^ 16`, and never without a point or an
exponent. -/
def json : Layout := ⟨fun order => -5 ≤ order && order < 16, true, true, .even⟩

/-- Digits, the first of which counts `10 ^ order`, written positionally. -/
def spread (layout : Layout) (digits : List Char) (order : Int) : List Char :=
  if order < 0 then ['0', '.'] ++ List.replicate (-order - 1).toNat '0' ++ digits
  else
    let whole := order.toNat + 1
    if digits.length ≤ whole then
      digits ++ List.replicate (whole - digits.length) '0' ++ if layout.fraction then ['.', '0'] else []
    else digits.take whole ++ '.' :: digits.drop whole

/-- Digits, the first of which counts `10 ^ order`, written with an exponent. -/
def scientific (layout : Layout) (digits : List Char) (order : Int) : List Char :=
  let sign := if order < 0 then ['-'] else if layout.plus then ['+'] else []
  digits.take 1 ++ (if digits.length ≤ 1 then [] else '.' :: digits.drop 1) ++ 'e' :: sign
    ++ Nat.toDigits 10 order.natAbs

/-- The text of a finite magnitude. -/
def magnitude (layout : Layout) (m : Magnitude) : List Char :=
  if m.rank = 0 then layout.spread ['0'] 0
  else
    let d := m.shortest layout.tie
    let written := Nat.toDigits 10 d.digits
    let order := d.exponent + written.length - 1
    let digits := (written.reverse.dropWhile (· == '0')).reverse
    if layout.positional order then layout.spread digits order else layout.scientific digits order

end Layout

def Binary64.chars (layout : Layout) : Binary64 → List Char
  | .nan => ['N', 'a', 'N']
  | .signed negative m =>
    (if negative then ['-'] else []) ++ if m.isFinite then layout.magnitude m else ['i', 'n', 'f']

/-- The text of a number, as a string. -/
def Binary64.text (layout : Layout) (x : Binary64) : String :=
  String.ofList (x.chars layout)

example : (Binary64.ofInt 1).chars .program = ['1', '.', '0'] := by decide +kernel
example : (Binary64.ofInt 1).chars .plain = ['1'] := by decide +kernel
example : ((Binary64.ofInt 1).div (.ofInt 10)).chars .plain = ['0', '.', '1'] := by decide +kernel
example : (Binary64.ofInt 10000000000000000).chars .program = ['1', 'e', '1', '6'] := by decide +kernel
example : (Binary64.ofInt 10000000000000000).chars .json = ['1', 'e', '+', '1', '6'] := by decide +kernel
example : (Binary64.signed false ⟨1, by decide⟩).chars .program = ['5', 'e', '-', '3', '2', '4'] := by
  decide +kernel
example : (Binary64.signed true .zero).chars .program = ['-', '0', '.', '0'] := by decide +kernel

end Cadence
