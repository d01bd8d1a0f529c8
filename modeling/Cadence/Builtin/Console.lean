/-!
# Consoles

A console takes what programs print and log, in order, and has dice for the functions that draw at random. The dice
are a sequence of natural numbers; nothing is assumed of it, so what holds for all consoles holds whatever is drawn.
-/

namespace Cadence

/-- How much a log entry matters, from what must be seen to what only a close look needs. -/
inductive Level
  | error
  | warn
  | info
  | debug
  | trace
deriving DecidableEq, Repr

/-- A log entry: a message under a topic, and the details behind it, which have names. -/
structure LogEntry where
  level : Level
  topic : String
  message : String
  details : List (String × String)
deriving DecidableEq, Repr

/-- The names of the fields of an entry. The message is a field too. -/
def LogEntry.fields (entry : LogEntry) : List String :=
  "message" :: entry.details.map Prod.fst

/-- Something that was put out. -/
inductive Output
  | printed (line : String)
  | logged (entry : LogEntry)
deriving DecidableEq, Repr

/-- The line that was printed, if that is what was put out. -/
def Output.printed? : Output → Option String
  | printed line => some line
  | logged _ => none

/-- The entry that was logged, if that is what was put out. -/
def Output.logged? : Output → Option LogEntry
  | printed _ => none
  | logged entry => some entry

/-- What was put out so far, and the dice. -/
structure Console where
  outputs : Array Output
  dice : Nat → Nat
  /-- How many dice were thrown. -/
  thrown : Nat

namespace Console

/-- A console with given dice. -/
def fresh (dice : Nat → Nat) : Console :=
  ⟨#[], dice, 0⟩

def put (c : Console) (output : Output) : Console :=
  { c with outputs := c.outputs.push output }

def throw (c : Console) : Nat × Console :=
  (c.dice c.thrown, { c with thrown := c.thrown + 1 })

def printedLines (c : Console) : List String :=
  c.outputs.toList.filterMap Output.printed?

/-- The messages logged under a topic. -/
def messages (c : Console) (topic : String) : List String :=
  ((c.outputs.toList.filterMap Output.logged?).filter (·.topic = topic)).map (·.message)

end Console

/-- Dice that look as if they were thrown, by a seed: every number below `2 ^ 64` comes from a multiple of an odd
constant, whose bits are stirred three times. -/
def seededDice (seed n : Nat) : Nat :=
  let z := UInt64.ofNat (seed + (n + 1) * 0x9E3779B97F4A7C15)
  let z := (z ^^^ (z >>> 30)) * 0xBF58476D1CE4E5B9
  let z := (z ^^^ (z >>> 27)) * 0x94D049BB133111EB
  (z ^^^ (z >>> 31)).toNat

/-- A state of which a console is part. -/
class HasConsole (σ : Type) where
  console : σ → Console
  /-- The state with another console. -/
  withConsole : σ → Console → σ

instance : HasConsole Console := ⟨id, fun _ c => c⟩

end Cadence
