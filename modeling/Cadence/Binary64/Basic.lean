import Cadence.Binary64.Magnitude

/-!
# Binary64 numbers

A binary64 number is a sign and a magnitude, or not a number. Each operation is the exact operation on
multiples of the format's unit, rounded once, so that its laws follow from those of the natural numbers.
`Binary64.position` lists all numbers in ascending order, with one place for the two zeros and none for "not a
number"; the comparisons are comparisons of positions.
-/

namespace Cadence

/-- A number of the binary64 format. -/
inductive Binary64
  | nan
  /-- A magnitude with a sign. -/
  | signed (negative : Bool) (magnitude : Magnitude)
deriving DecidableEq

namespace Binary64

def zero : Binary64 := .signed false .zero

def infinity (negative : Bool) : Binary64 := .signed negative .infinite

/-- Whether a number is neither an infinity nor "not a number". -/
def isFinite : Binary64 → Bool
  | nan => false
  | signed _ m => m.isFinite

/-- The worth of a finite number, in units of `2 ^ -1074`. -/
def units : Binary64 → Int
  | nan => 0
  | signed true m => -m.units
  | signed false m => m.units

/-- The place of a number among all numbers in ascending order; both zeros have place zero. -/
def position : Binary64 → Option Int
  | nan => none
  | signed true m => some (-m.rank)
  | signed false m => some m.rank

def lt (a b : Binary64) : Bool :=
  match a.position, b.position with
  | some i, some j => i < j
  | _, _ => false

def le (a b : Binary64) : Bool :=
  match a.position, b.position with
  | some i, some j => i ≤ j
  | _, _ => false

/-- Whether two numbers are equal as numbers: the zeros are, and "not a number" equals nothing. -/
def equals (a b : Binary64) : Bool :=
  match a.position, b.position with
  | some i, some j => i == j
  | _, _ => false

def isWhole : Binary64 → Bool
  | nan => false
  | signed _ m => m.isFinite && m.units % unitsPerOne == 0

/-- A finite number without its fraction. -/
def truncate (a : Binary64) : Int :=
  a.units.tdiv unitsPerOne

/-- The number of a given sign nearest to `num / den` units. -/
def ofUnits (negative : Bool) (num den : Nat) : Binary64 :=
  .signed negative (.nearest num den)

def ofInt (i : Int) : Binary64 :=
  ofUnits (i < 0) (i.natAbs * unitsPerOne) 1

def neg : Binary64 → Binary64
  | nan => nan
  | signed s m => signed (!s) m

/-- The sum of two numbers. An exact sum of zero is negative only if both terms are. -/
def add : Binary64 → Binary64 → Binary64
  | nan, _ => nan
  | _, nan => nan
  | signed s m, signed t n =>
    if m.isFinite && n.isFinite then
      let sum := (signed s m).units + (signed t n).units
      ofUnits (if sum = 0 then s && t else sum < 0) sum.natAbs 1
    else if m.isFinite then signed t n
    else if n.isFinite || s == t then signed s m
    else nan

def sub (a b : Binary64) : Binary64 :=
  a.add b.neg

def mul : Binary64 → Binary64 → Binary64
  | nan, _ => nan
  | _, nan => nan
  | signed s m, signed t n =>
    if m.isFinite && n.isFinite then ofUnits (s != t) (m.units * n.units) unitsPerOne
    else if m.rank = 0 || n.rank = 0 then nan
    else infinity (s != t)

def div : Binary64 → Binary64 → Binary64
  | nan, _ => nan
  | _, nan => nan
  | signed s m, signed t n =>
    if m.isFinite && n.isFinite then
      if n.rank = 0 then if m.rank = 0 then nan else infinity (s != t)
      else ofUnits (s != t) (m.units * unitsPerOne) n.units
    else if m.isFinite then signed (s != t) .zero
    else if n.isFinite then infinity (s != t)
    else nan

/-- The integer between `low` and `high` that is nearest to a number without its fraction; "not a number" counts
as zero. -/
def clamp (low high : Int) : Binary64 → Int
  | nan => 0
  | signed s m => if m.isFinite then max low (min high (signed s m).truncate) else if s then low else high

instance : Inhabited Binary64 := ⟨zero⟩

end Binary64

end Cadence
