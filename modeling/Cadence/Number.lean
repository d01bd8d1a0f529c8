import Cadence.Binary64.Layout

/-!
# Number literals

A number literal is a 64-bit integer or a binary64 number, and keeps which of the two it is. Arithmetic on
literals stays with integers as long as both operands are integers, except for division, which always gives a
binary64 number; a result that does not exist is a fault.
-/

namespace Cadence

/-- An integer as a 64-bit word, if it fits. -/
def fitInt64 (i : Int) : Option Int64 :=
  if Int64.minValue.toInt ≤ i ∧ i ≤ Int64.maxValue.toInt then some (Int64.ofInt i) else none

/-- An integer in decimal digits. -/
def decimalChars (i : Int) : List Char :=
  (if i < 0 then ['-'] else []) ++ Nat.toDigits 10 i.natAbs

inductive Number
  | int (value : Int64)
  /-- A number with a point or an exponent. -/
  | float (value : Binary64)
deriving DecidableEq

inductive Operator
  | plus
  | minus
  | times
  | dividedBy
deriving DecidableEq

/-- Why an operation on literals has no result. -/
inductive ArithmeticFault
  | divisionByZero
  /-- The exact integer does not fit 64 bits. -/
  | overflow
  /-- The result is an infinity or not a number. -/
  | notFinite
deriving DecidableEq

namespace Number

/-- The binary64 number nearest to a literal. -/
def toBinary64 : Number → Binary64
  | int i => .ofInt i.toInt
  | float x => x

def chars : Number → List Char
  | int i => decimalChars i.toInt
  | float x => x.chars .program

/-- Whether two literals are equal: of one kind, and equal as numbers. -/
def equals : Number → Number → Bool
  | int i, int j => i == j
  | float x, float y => x.equals y
  | _, _ => false

/-- The exact result of an operator on two integers. Division has none. -/
def inIntegers? (i j : Int) : Operator → Option Int
  | .plus => some (i + j)
  | .minus => some (i - j)
  | .times => some (i * j)
  | .dividedBy => none

/-- The result of an operator on two binary64 numbers. -/
def rounded (x y : Binary64) : Operator → Binary64
  | .plus => x.add y
  | .minus => x.sub y
  | .times => x.mul y
  | .dividedBy => x.div y

/-- The result of an operator on two literals. -/
def apply (op : Operator) (a b : Number) : Except ArithmeticFault Number :=
  if op = .dividedBy ∧ b.toBinary64.equals .zero then .error .divisionByZero
  else
    let inBinary64 : Except ArithmeticFault Number :=
      let x := rounded a.toBinary64 b.toBinary64 op
      if x.isFinite then .ok (.float x) else .error .notFinite
    match a, b with
    | int i, int j =>
      match inIntegers? i.toInt j.toInt op with
      | some n => match fitInt64 n with
        | some k => .ok (.int k)
        | none => .error .overflow
      | none => inBinary64
    | _, _ => inBinary64

instance : Inhabited Number := ⟨int 0⟩

end Number

end Cadence
