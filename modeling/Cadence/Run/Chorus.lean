import Cadence.Run.Clock
import Cadence.Run.Performance

/-!
# Merged performances

Several statements are performed side by side, and what their turns come to forms one row. The statements that can
go on stand in a queue, at first in program order. The one in front pulls its next interval; if the delay does not
last, it fires at once and goes to the back of the queue, otherwise it leaves the queue until its time has come.
Time passes only when the queue is empty. A statement that is over leaves for good.
-/

namespace Cadence

variable {σ : Type}

/-- What a turn of one of several statements comes to. -/
structure Happening where
  name : String
  /-- The time of the firing or the failure, in milliseconds. -/
  time : Nat
  result : Except Error Value

/-- One of several statements that are performed side by side. -/
structure Part (σ : Type) where
  name : String
  performance : Performance σ
  /-- Whether the part has pulled an interval and is to fire. -/
  firing : Bool

/-- Several statements that are performed side by side. -/
structure Chorus (σ : Type) where
  /-- The time, in milliseconds. -/
  now : Nat
  /-- The parts that can go on. -/
  queue : List (Part σ)
  /-- The parts that wait for their time. -/
  waiting : List (Nat × Part σ)

/-- Of some waiting ones, those that come due first, with their time, and the others. -/
def nextDue {α : Type} (waiting : List (Nat × α)) : Option (Nat × List α × List (Nat × α)) :=
  (waiting.map (·.1)).min?.map fun due =>
    (due, (waiting.filter (·.1 == due)).map (·.2), waiting.filter (·.1 != due))

theorem nextDue_eq_none_iff {α : Type} (waiting : List (Nat × α)) : nextDue waiting = none ↔ waiting = [] := by
  simp [nextDue, List.min?_eq_none_iff]

namespace Chorus

/-- The statements before anything happens. -/
def start (statements : List (Bound.Statement σ Bound.Passes)) : Chorus σ :=
  ⟨0, statements.map fun s => ⟨s.action.name, Performance.start s id, false⟩, []⟩

/-- Lets a part fire. It goes to the back of the queue unless its call failed. -/
def fire (now : Nat) (part : Part σ) (queue : List (Part σ)) (waiting : List (Nat × Part σ)) :
    StateM (World σ) (Option Happening × Chorus σ) := do
  let (result, p) ← part.performance.fire
  let back := if p.ended then [] else [{ part with performance := p, firing := false }]
  return (some ⟨part.name, now, result⟩, ⟨now, queue ++ back, waiting⟩)

/-- The next happening, given the time, the queue and the waiting parts. -/
def nextFrom (clock : Clock) (now : Nat) (waiting : List (Nat × Part σ)) :
    List (Part σ) → StateM (World σ) (Option Happening × Chorus σ)
  | part :: queue =>
    if part.firing then fire now part queue waiting
    else do
      let (pulled, p) ← part.performance.pull
      match pulled with
      | .nothing => nextFrom clock now waiting queue
      | .broken e => return (some ⟨part.name, now, .error e⟩, ⟨now, queue, waiting⟩)
      | .due seconds =>
        let part := { part with performance := p, firing := true }
        if clock seconds = 0 then fire now part queue waiting
        else nextFrom clock now (waiting ++ [(now + clock seconds, part)]) queue
  | [] =>
    match nextDue waiting with
    | some (due, part :: queue, waiting) => fire due part queue waiting
    | _ => return (none, ⟨now, [], []⟩)

/-- The next happening, if there is one. -/
def next (clock : Clock) (c : Chorus σ) : StateM (World σ) (Option Happening × Chorus σ) :=
  nextFrom clock c.now c.waiting c.queue

/-- At most `count` happenings. -/
def take (clock : Clock) : Nat → Chorus σ → StateM (World σ) (List Happening × Chorus σ)
  | 0, c => pure ([], c)
  | count + 1, c => do
    let (happening, c) ← c.next clock
    match happening with
    | none => return ([], c)
    | some happening => do
      let (happenings, c) ← take clock count c
      return (happening :: happenings, c)

end Chorus

end Cadence
