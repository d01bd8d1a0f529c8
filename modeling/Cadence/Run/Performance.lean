import Cadence.Run.Cursor

/-!
# Performances

A performance of a statement goes in turns: pull the next interval, ask for a delay, call the action. The interval
of a turn is thus found only after the action of the turn before. A performance is over when its schedule is used
up, or right after the first error.
-/

namespace Cadence

variable {σ : Type}

/-- A statement that is being performed. -/
structure Performance (σ : Type) where
  pairs : Pairs σ
  /-- The delay that is asked for an interval. -/
  pace : Binary64 → Binary64
  /-- Whether the performance is over. -/
  ended : Bool

/-- What the first half of a turn comes to. -/
inductive Pulled
  /-- There is no further turn. -/
  | nothing
  /-- The interval could not be found. -/
  | broken (error : Error)
  /-- The action is to be called after a delay that was asked for. -/
  | due (seconds : Binary64)

namespace Performance

/-- A performance that has not begun. -/
def start (s : Bound.Statement σ Bound.Passes) (pace : Binary64 → Binary64) : Performance σ :=
  ⟨Pairs.start s, pace, false⟩

/-- The first half of a turn: pulls the next interval and asks for the delay. -/
def pull (p : Performance σ) : StateM (World σ) (Pulled × Performance σ) := do
  if p.ended then return (.nothing, p)
  else
    let (pulled, pairs) ← p.pairs.next
    match pulled with
    | .ok (some (interval, _)) =>
      modify (·.wait (p.pace interval))
      return (.due (p.pace interval), { p with pairs := pairs })
    | .ok none => return (.nothing, { p with pairs := pairs, ended := true })
    | .error e => return (.broken e, { p with pairs := pairs, ended := true })

/-- The second half of a turn: calls the action. -/
def fire (p : Performance σ) : StateM (World σ) (Except Error Value × Performance σ) := do
  match ← p.pairs.action.invoke.run with
  | .ok value => return (.ok value, p)
  | .error e => return (.error e, { p with ended := true })

/-- A whole turn, if there is one, with what it comes to. -/
def turn (p : Performance σ) : StateM (World σ) (Option (Except Error Value) × Performance σ) := do
  let (pulled, p) ← p.pull
  match pulled with
  | .nothing => return (none, p)
  | .broken e => return (some (.error e), p)
  | .due _ => do
    let (result, p) ← p.fire
    return (some result, p)

def take : Nat → Performance σ → StateM (World σ) (List (Except Error Value) × Performance σ)
  | 0, p => pure ([], p)
  | count + 1, p => do
    let (result, p) ← p.turn
    match result with
    | none => return ([], p)
    | some result => do
      let (results, p) ← take count p
      return (result :: results, p)

end Performance

end Cadence
