import Cadence.Bound.Evaluation

/-!
# Cursors

A cursor goes through a bound schedule and hands out its intervals one by one. It keeps a frame for every schedule
that it is inside of, innermost first; a frame counts the passes that are complete and the items of the current
pass that were taken. A call for an interval is made when the cursor reaches it, never before. After the end, or
after an error, a cursor is finished.
-/

namespace Cadence

variable {σ : Type}

/-! ## Depth -/

mutual

/-- How many schedules an item puts inside one another. -/
def Bound.Item.depth {π : Type} : Bound.Item σ π → Nat
  | .interval _ => 0
  | .call _ => 0
  | .schedule items _ => Bound.Items.depth items + 1
termination_by structural a => a

/-- How many schedules some items put inside one another. -/
def Bound.Items.depth {π : Type} : List (Bound.Item σ π) → Nat
  | [] => 0
  | a :: rest => max a.depth (Bound.Items.depth rest)
termination_by structural a => a

end

/-- How many schedules stand inside one another, the schedule itself included. -/
def Bound.Schedule.depth {π : Type} (s : Bound.Schedule σ π) : Nat :=
  s.toItem.depth

/-! ## Frames -/

/-- A schedule that a cursor is inside of. -/
structure Frame (σ : Type) where
  schedule : Bound.Schedule σ Bound.Passes
  /-- How many passes are complete. -/
  pass : UInt64
  /-- How many items of the current pass were taken. -/
  index : Nat

/-- What a step in a frame leads to. -/
inductive Step (σ : Type)
  /-- To an interval. -/
  | yield (seconds : Binary64)
  /-- Into a schedule inside the frame's. -/
  | descend (inner : Bound.Schedule σ Bound.Passes)
  /-- Out of the frame. -/
  | pop

namespace Frame

/-- The frame at the front of a schedule. -/
def start (schedule : Bound.Schedule σ Bound.Passes) : Frame σ :=
  ⟨schedule, 0, 0⟩

/-- The frame at the front of the next pass, if no item of its pass is left. -/
def turned (f : Frame σ) : Frame σ :=
  if f.schedule.items.length ≤ f.index then { f with pass := f.pass + 1, index := 0 } else f

/-- Where an item leads to. -/
def reach : Bound.Item σ Bound.Passes → Host σ (Step σ)
  | .interval seconds => pure (.yield seconds)
  | .call c => do
    let value ← c.invoke
    let seconds ← Host.ofResult (c.interval value)
    return .yield seconds
  | .schedule items passes => pure (.descend ⟨items, passes⟩)

/-- The frame after a step, and where the step leads. A pass begins with the step that takes its first item, so
that the frame of a schedule whose last pass is over is left only by a further step. -/
def step (f : Frame σ) : Frame σ × Host σ (Step σ) :=
  let f := f.turned
  if f.schedule.passes.isComplete f.pass then (f, pure .pop)
  else match f.schedule.items[f.index]? with
    | none => (f, pure .pop)
    | some item => ({ f with index := f.index + 1 }, reach item)

end Frame

/-! ## Cursors -/

/-- A cursor over the intervals of a schedule. -/
structure Cursor (σ : Type) where
  /-- The schedules that the cursor is inside of, innermost first. -/
  frames : List (Frame σ)
  /-- How many steps an interval can take at most. -/
  reach : Nat
  /-- Whether the end or an error was reported. -/
  finished : Bool

namespace Cursor

/-- A cursor at the front of a schedule. Leaving all frames and entering new ones takes at most two steps for every
level of nesting. -/
def start (schedule : Bound.Schedule σ Bound.Passes) : Cursor σ :=
  ⟨[Frame.start schedule], 2 * schedule.depth, false⟩

/-- Steps through frames up to an interval, or to the end. -/
def walk : Nat → List (Frame σ) → Host σ (Option Binary64 × List (Frame σ))
  | _, [] => pure (none, [])
  | 0, frames => pure (none, frames)
  | steps + 1, f :: outer => do
    match ← f.step.2 with
    | .yield seconds => return (some seconds, f.step.1 :: outer)
    | .descend inner => walk steps (Frame.start inner :: f.step.1 :: outer)
    | .pop => walk steps outer

/-- Pulls the next interval, or learns that there is none. A finished cursor has nothing more to say. -/
def next (c : Cursor σ) : StateM (World σ) (Except Error (Option Binary64) × Cursor σ) := fun w =>
  if c.finished then ((.error .exhausted, c), w)
  else match walk c.reach c.frames w with
    | (.ok (some seconds, frames), w') => ((.ok (some seconds), { c with frames := frames }), w')
    | (.ok (none, frames), w') => ((.ok none, { c with frames := frames, finished := true }), w')
    | (.error e, w') => ((.error e, { c with frames := [], finished := true }), w')

/-- Pulls the next interval as long as the cursor is not finished, and nothing afterwards. -/
def next? (c : Cursor σ) : StateM (World σ) (Option (Except Error Binary64) × Cursor σ) :=
  if c.finished then pure (none, c)
  else do
    let (pulled, c) ← c.next
    return match pulled with
      | .ok (some seconds) => (some (.ok seconds), c)
      | .ok none => (none, c)
      | .error e => (some (.error e), c)

/-- Pulls at most `count` intervals; what is pulled last may be an error. -/
def take : Nat → Cursor σ → StateM (World σ) (List (Except Error Binary64) × Cursor σ)
  | 0, c => pure ([], c)
  | count + 1, c => do
    let (pulled, c) ← c.next?
    match pulled with
    | none => return ([], c)
    | some result => do
      let (results, c) ← take count c
      return (result :: results, c)

end Cursor

/-! ## Intervals with their action -/

/-- A cursor over the intervals of a statement, each together with the statement's action. -/
structure Pairs (σ : Type) where
  cursor : Cursor σ
  action : Bound.Call σ

namespace Pairs

/-- A cursor at the front of a statement. -/
def start (s : Bound.Statement σ Bound.Passes) : Pairs σ :=
  ⟨Cursor.start s.schedule, s.action⟩

/-- Pulls the next interval with the action, which is not called by that. -/
def next (p : Pairs σ) : StateM (World σ) (Except Error (Option (Binary64 × Bound.Call σ)) × Pairs σ) := do
  let (pulled, cursor) ← p.cursor.next
  return (pulled.map (·.map (·, p.action)), { p with cursor := cursor })

/-- Pulls the next interval with the action as long as the cursor is not finished, and nothing afterwards. -/
def next? (p : Pairs σ) : StateM (World σ) (Option (Except Error (Binary64 × Bound.Call σ)) × Pairs σ) := do
  let (pulled, cursor) ← p.cursor.next?
  return (pulled.map (·.map (·, p.action)), { p with cursor := cursor })

end Pairs

end Cadence
