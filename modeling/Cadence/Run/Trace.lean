import Cadence.Run.Cursor

/-!
# Traces

A trace lists the first intervals of every statement with the time that has passed, without calling any action. It
is given as a whole or not at all: an interval that cannot be found spoils the trace.
-/

namespace Cadence

variable {σ : Type}

/-- A text moved to the right in a column of some width. -/
def padLeft (width : Nat) (s : List Char) : List Char :=
  List.replicate (width - s.length) ' ' ++ s

/-- A text at the left of a column of some width. -/
def padRight (width : Nat) (s : List Char) : List Char :=
  s ++ List.replicate (width - s.length) ' '

/-- The line for an interval: its number, the interval, and the time that has passed with it. -/
def traceLine (number : Nat) (interval time : Binary64) : String :=
  String.ofList
    (' ' :: ' ' :: padLeft 4 (Nat.toDigits 10 number) ++ ' ' :: ' ' :: '+' :: padRight 10 (interval.chars .plain)
      ++ ' ' :: 't' :: '=' :: time.chars .plain)

/-- The line for the end of a schedule. -/
def traceEnd : String := "  (end)"

/-- The lines for at most `count` intervals of a cursor that has yielded `number` of them, in `time`. The error is
that of an interval. -/
def traceFrom : Nat → Nat → Binary64 → Cursor σ → StateM (World σ) (Except Error (List String))
  | 0, _, _, _ => pure (.ok [])
  | count + 1, number, time, c => do
    let (pulled, c) ← c.next
    match pulled with
    | .ok (some interval) => do
      let rest ← traceFrom count (number + 1) (time.add interval) c
      return rest.map (traceLine (number + 1) interval (time.add interval) :: ·)
    | .ok none => return .ok [traceEnd]
    | .error e => return .error e

/-- The trace of some statements with at most `count` intervals of each: the text of a statement, then its
intervals. The error of an interval is given with the name of the action. -/
def traceLines (count : Nat) :
    List (Bound.Statement σ Bound.Passes) → StateM (World σ) (Except (String × Error) (List String))
  | [] => pure (.ok [])
  | s :: others => do
    match ← traceFrom count 0 .zero (Cursor.start s.schedule) with
    | .error e => return .error (s.action.name, e)
    | .ok lines => do
      let rest ← traceLines count others
      return rest.map (s.source :: lines ++ ·)

end Cadence
