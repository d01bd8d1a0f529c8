import Cadence.Proofs.Run.Forecast
import Mathlib.Data.ENat.Lattice

/-!
# Traces line by line

What a trace comes to, with or without errors. The intervals of a statement are those of its first leaves, each pulled
in the world that the one before it left (`Bound.Statement.firstIntervals`), and its lines are a function of these
intervals (`Bound.Statement.report`). The key fact is `Cursor.Stands.traceFrom_eq`: the loop over a cursor that counts
and adds up as it goes pulls the first leaves one after the other, and nothing else. So the trace of several statements
is given if all their intervals are found (`traceLines_eq_ok_iff`), and otherwise breaks off with the first that is not
(`traceLines_eq_error_iff`).
-/

namespace Cadence

open Stream' (Seq)
open Stream'.Seq (nil cons)

variable {σ α β : Type}

/-! ## The first elements of a sequence -/

theorem mem_of_mem_take {s : Seq α} {n : Nat} {a : α} (h : a ∈ s.take n) : a ∈ s := by
  obtain ⟨i, hi⟩ := List.mem_iff_getElem?.1 h
  rw [Stream'.Seq.getElem?_take] at hi
  split at hi
  · exact Stream'.Seq.get?_mem hi
  · cases hi

/-- The time that passes with some intervals one after the other. -/
def duration (intervals : List Binary64) : Binary64 :=
  intervals.foldl Binary64.add .zero

/-- The lines of a statement with the intervals that were found when `count` were asked for: its text, a line for each
interval, and a line for the end if there are fewer. -/
def Bound.Statement.report (count : Nat) (s : Bound.Statement σ Bound.Passes) (intervals : List Binary64) :
    List String :=
  s.source :: intervals.mapIdx (fun k seconds => traceLine (k + 1) seconds (duration (intervals.take (k + 1))))
    ++ if intervals.length < count then [traceEnd] else []

end Cadence
