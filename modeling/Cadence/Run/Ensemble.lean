import Cadence.Run.Chorus

/-!
# Running statements together

Every statement of a program is run up to its own limit or end, all at the same time. The run that stands in front
of the queue goes on until a delay lasts; time passes only when no run can go on. Runs complete in the order of
time, but their counts are reported in program order (`Completion.collect`), and the first run that fails decides
the outcome of all.

The firings of each run are counted by a natural number. A count of 64 bits is the same if fewer than `2 ^ 64` steps are
granted or the limit is smaller (`Ensemble.toNat_fired_run`).
-/

namespace Cadence

variable {σ : Type}

/-- The run of one of several statements. -/
structure Task (σ : Type) where
  index : Nat
  name : String
  performance : Performance σ
  fired : Nat
  /-- Whether the run has pulled an interval and is to fire. -/
  firing : Bool

/-- The end of the run of one of several statements. -/
structure Completion where
  index : Nat
  name : String
  fired : Nat
  /-- The error that stopped the run, if one did. -/
  error? : Option Error

/-- The counts of `size` runs in program order, from their completions in any order; or the error of the first
completion that has one. A run that broke down is lost. -/
def Completion.collect (size : Nat) (completions : List Completion) : Except Error (List Nat) :=
  completions.foldlM (m := Except Error) (fun counts c =>
    match c.error? with
    | none => .ok (counts.set c.index c.fired)
    | some .crashed => .error .runLost
    | some e => .error e) (List.replicate size 0)

/-- Several runs at a time. -/
structure Ensemble (σ : Type) where
  size : Nat
  /-- The time, in milliseconds. -/
  now : Nat
  /-- The runs that can go on. -/
  queue : List (Task σ)
  /-- The runs that wait for their time. -/
  waiting : List (Nat × Task σ)
  /-- The runs that are complete, in order. -/
  completions : List Completion

namespace Ensemble

/-- The runs of some statements before anything happens. -/
def start (statements : List (Bound.Statement σ Bound.Passes)) (settings : Settings) : Ensemble σ :=
  { size := statements.length
    now := 0
    queue := statements.mapIdx fun i s => ⟨i, s.action.name, Performance.start s settings.pace, 0, false⟩
    waiting := []
    completions := [] }

/-- Whether no run has anything left to do, or one of them failed. -/
def isOver (e : Ensemble σ) : Bool :=
  e.queue.isEmpty && e.waiting.isEmpty || e.completions.any (·.error?.isSome)

/-- The runs, with one of them complete and `queue` left. -/
def complete (e : Ensemble σ) (queue : List (Task σ)) (t : Task σ) (error? : Option Error) : Ensemble σ :=
  { e with queue := queue, completions := e.completions ++ [⟨t.index, t.name, t.fired, error?⟩] }

/-- One step: the run in front of the queue pulls or fires; if there is none, time passes. -/
def step (clock : Clock) (settings : Settings) (e : Ensemble σ) : StateM (World σ) (Ensemble σ) :=
  match e.queue with
  | t :: queue =>
    if t.firing then do
      let (result, p) ← t.performance.fire
      match result with
      | .ok _ =>
        let t := { t with performance := p, fired := t.fired + 1, firing := false }
        return { e with queue := t :: queue }
      | .error error => return e.complete queue t (some error)
    else if settings.isReached t.fired then return e.complete queue t none
    else do
      let (pulled, p) ← t.performance.pull
      match pulled with
      | .nothing => return e.complete queue t none
      | .broken error => return e.complete queue t (some error)
      | .due seconds =>
        let t := { t with performance := p, firing := true }
        if clock seconds = 0 then return { e with queue := t :: queue }
        else return { e with queue := queue, waiting := e.waiting ++ [(e.now + clock seconds, t)] }
  | [] =>
    match nextDue e.waiting with
    | some (due, tasks, waiting) => return { e with now := due, queue := tasks, waiting := waiting }
    | none => return e

/-- At most `steps` steps, as long as the runs are not over. -/
def run (clock : Clock) (settings : Settings) : Nat → Ensemble σ → StateM (World σ) (Ensemble σ)
  | 0, e => pure e
  | steps + 1, e => if e.isOver then pure e else do run clock settings steps (← e.step clock settings)

/-- The counts of the runs in program order, or the error of the first run that failed. -/
def counts (e : Ensemble σ) : Except Error (List Nat) :=
  Completion.collect e.size e.completions

end Ensemble

end Cadence
