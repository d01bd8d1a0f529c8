import Cadence.Run.Clock
import Cadence.Run.Performance

/-!
# Running one statement

A run performs a statement turn by turn up to the limit, the end of the schedule, or the first error. A schedule
without end and without limit is run for as many turns as are granted; a run that needs no more of them is not
changed by granting more.

Firings are counted by a natural number. A count of 64 bits is the same if fewer than `2 ^ 64` turns are granted or the
limit is smaller (`Bound.Statement.toNat_fired_run`).
-/

namespace Cadence

variable {σ : Type}

/-- How a run stands. -/
inductive Standing
  /-- It came to its limit or to the end of the schedule. -/
  | finished (fired : Nat)
  /-- An error stopped it. -/
  | stopped (fired : Nat) (error : Error)
  /-- It used up the turns that it was granted. -/
  | underway (fired : Nat)

/-- Goes on with a performance that has fired so often, for at most `turns` turns. -/
def Performance.run (settings : Settings) : Nat → Nat → Performance σ → StateM (World σ) Standing
  | turns, fired, p =>
    if settings.isReached fired then return .finished fired
    else match turns with
      | 0 => return .underway fired
      | turns + 1 => do
        let (result, p) ← p.turn
        match result with
        | none => return .finished fired
        | some (.error e) => return .stopped fired e
        | some (.ok _) => run settings turns (fired + 1) p

/-- Runs a statement for at most `turns` turns. -/
def Bound.Statement.run (s : Bound.Statement σ Bound.Passes) (settings : Settings) (turns : Nat) :
    StateM (World σ) Standing :=
  (Performance.start s settings.pace).run settings turns 0

end Cadence
