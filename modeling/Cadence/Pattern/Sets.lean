import Cadence.Pattern.Basic

/-!
# Sets in patterns

A set stands in brackets. Its members are characters, ranges of characters, classes with a name, and further sets,
and two sets can be combined by `&&`, `--` or `~~`. In ASCII mode nothing is negated, since all other characters
would be in the set then.
-/

namespace Cadence.Pattern

/-- The names of classes, which stand between colons. -/
def classNames : List String :=
  ["alnum", "alpha", "ascii", "blank", "cntrl", "digit", "graph", "lower", "print", "punct", "space", "upper", "word",
    "xdigit"]

/-- Reads a class with a name, behind its bracket, and what follows. Tells whether it is negated. -/
def readNamedClass? : List Char → Option (Bool × List Char)
  | ':' :: r =>
    let negated := r.head? == some '^'
    let r := if negated then r.drop 1 else r
    match r.dropWhile (· != ':') with
    | ':' :: ']' :: rest =>
      if classNames.contains (String.ofList (r.takeWhile (· != ':'))) then some (negated, rest) else none
    | _ => none
  | _ => none

/-- Reads a character or a class without a name, which is `none`, and what follows. -/
def readMember? (mode : Mode) : List Char → Option (Option Char × List Char)
  | [] => none
  | '\\' :: r =>
    match readEscape? mode r with
    | some (.character c, rest) => if mode.ascii && 0x80 ≤ c.toNat then none else some (some c, rest)
    | some (.charClass, rest) => some (none, rest)
    | _ => none
  | c :: r => if mode.ascii && 0x80 ≤ c.toNat then none else some (some c, r)

/-- Passes a member or a range. A hyphen at the end of a set, or in front of another one, makes no range. -/
def passRange? (mode : Mode) (s : List Char) : Option (List Char) := do
  let (low, r) ← readMember? mode s
  match mode.skip r with
  | '-' :: r' =>
    let r' := mode.skip r'
    if r'.head? == some ']' || r'.head? == some '-' then return '-' :: r'
    let (high, rest) ← readMember? mode r'
    match low, high with
    | some a, some b => if a ≤ b then some rest else none
    | _, _ => none
  | r => return r

/-- Passes what stands at the front of a set: perhaps `^`, and a bracket that is a member. -/
def passSetStart? (mode : Mode) (s : List Char) : Option (List Char) := do
  let r ← match mode.skip s with
    | '^' :: r => if mode.ascii then none else some (mode.skip r)
    | r => some r
  return if r.head? == some ']' then r.drop 1 else r

/-- Passes one part of a set. The result tells how many sets are open then; `depth` are open now. -/
def passInSet? (mode : Mode) (depth : Nat) : List Char → Option (Nat × List Char)
  | ']' :: r => some (depth - 1, r)
  | '&' :: '&' :: r => some (depth, r)
  | '-' :: '-' :: r => some (depth, r)
  | '~' :: '~' :: r => some (depth, r)
  | '[' :: r =>
    match readNamedClass? r with
    | some (negated, rest) => if negated && mode.ascii then none else some (depth, rest)
    | none => (passSetStart? mode r).map fun rest => (depth + 1, rest)
  | s => (passRange? mode s).map fun rest => (depth, rest)

end Cadence.Pattern
