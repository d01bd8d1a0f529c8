import Cadence.Pattern.Sets
import Cadence.Text.Alphanumeric

/-!
# Supported patterns

Tells which texts are patterns that are supported. What they match is of no concern here: a text is passed part by
part, and all that is kept is what is open (`Progress`). Nothing that needs a table of Unicode is supported. Counted
repetitions are not supported either, nor is anything that looks around.
-/

namespace Cadence.Pattern

/-- What is known behind the front of a pattern. -/
structure Progress where
  mode : Mode
  /-- The modes around the open groups, the innermost first. -/
  outer : List Mode
  names : List (List Char)
  /-- How many sets are open. -/
  sets : Nat
  /-- Whether there is something in front that can be repeated. -/
  operand : Bool

namespace Progress

/-- At the front of a pattern. -/
def initial : Progress :=
  ⟨.initial, [], [], 0, false⟩

/-- Behind a part that can be repeated. -/
def passed (p : Progress) : Progress :=
  { p with operand := true }

/-- Inside a group, which has a mode of its own. -/
def inGroup (p : Progress) (mode : Mode) : Progress :=
  { p with mode := mode, outer := p.mode :: p.outer, operand := false }

/-- Whether a group can have a name. -/
def allowsName (p : Progress) : List Char → Bool
  | [] => false
  | c :: r =>
    (c == '_' || isAlphanumeric c && !c.isDigit)
      && r.all (fun d => ['_', '.', '[', ']'].contains d || isAlphanumeric d) && !p.names.contains (c :: r)

/-- Passes the name of a group. -/
def passName? (p : Progress) (s : List Char) : Option (Progress × List Char) :=
  let name := s.takeWhile (· != '>')
  match s.dropWhile (· != '>') with
  | '>' :: rest =>
    if p.allowsName name then some ({ p.inGroup p.mode with names := name :: p.names }, rest) else none
  | _ => none

/-- Passes what stands behind the bracket that opens a group: perhaps its name, or letters that change the mode. With
letters alone the bracket is closed at once, and the mode changes to the end of the group around. -/
def passGroupStart? (p : Progress) : List Char → Option (Progress × List Char)
  | '?' :: '<' :: r => p.passName? r
  | '?' :: 'P' :: '<' :: r => p.passName? r
  | '?' :: r =>
    let letters := r.takeWhile fun c => c != ':' && c != ')'
    match r.drop letters.length with
    | ':' :: rest => (p.mode.change? letters).map fun mode => (p.inGroup mode, rest)
    | ')' :: rest =>
      if letters.isEmpty then none
      else (p.mode.change? letters).map fun mode => ({ p with mode := mode, operand := false }, rest)
    | _ => none
  | r => some (p.inGroup p.mode, r)

/-- Passes one part of a pattern outside all sets. -/
def passPart? (p : Progress) (c : Char) (r : List Char) : Option (Progress × List Char) :=
  match c with
  | '(' => p.passGroupStart? r
  | ')' =>
    match p.outer with
    | [] => none
    | mode :: outer => some ({ p with mode := mode, outer := outer, operand := true }, r)
  | '|' => some ({ p with operand := false }, r)
  | '[' => if p.mode.canMatch then (passSetStart? p.mode r).map fun rest => ({ p with sets := 1 }, rest) else none
  | '\x7b' => none
  | '*' | '+' | '?' => if p.operand then some (p, r) else none
  | '^' | '$' => some (p.passed, r)
  | '.' => if p.mode.ascii then none else some (p.passed, r)
  | '\\' =>
    match readEscape? p.mode r with
    | some (.character _, rest) => if p.mode.canMatch then some (p.passed, rest) else none
    | some (_, rest) => some (p.passed, rest)
    | none => none
  | _ => if p.mode.canMatch then some (p.passed, r) else none

/-- Passes one part of a pattern. -/
def pass? (p : Progress) (c : Char) (r : List Char) : Option (Progress × List Char) :=
  if p.sets = 0 then p.passPart? c r
  else (passInSet? p.mode p.sets (c :: r)).map fun (sets, rest) => ({ p.passed with sets := sets }, rest)

/-- Whether the rest of a pattern can be passed and nothing is open at its end. Every part must take something from
the text. -/
def canEnd (p : Progress) (s : List Char) : Bool :=
  match p.mode.skip s with
  | [] => p.outer.isEmpty && p.sets = 0
  | c :: r =>
    match p.pass? c r with
    | none => false
    | some (p, rest) => if rest.length < s.length then p.canEnd rest else false
termination_by s.length

end Progress

/-- Whether a text is a pattern that is supported. -/
def isSupported (s : List Char) : Bool :=
  Progress.initial.canEnd s

example : ["", "lo.*", "(a|b)+?", "[]x]", "[^a-z[:^digit:]&&[0-9]]", "(?P<n>x)", "\\.\\x41\\A", "|", "(?s-m:.)",
    "(?-u)\\d", "(?i-u)a", "(?x) a # (\n+", "[a-]", "[--]"].all (isSupported ·.toList) = true := by decide +kernel

example : ["*", "(", ")", "a|+", "[", "[]", "(?:", "\\", "\\q", "\\x4", "(?<>x)", "(?)", "(?i-)", "a\x7b2", "[z-a]",
    "\\d", "\\w", "[\\s]", "\\b", "(?i)a", "(?-u).", "(?=a)", "(?P<n>x)(?P<n>y)"].any
    (isSupported ·.toList) = false := by decide +kernel

end Cadence.Pattern
