import Cadence.Callable.Signature
import Cadence.Value

/-!
# Callables and the world they act on

A callable is a named operation of the host with a signature. It may read and change the host's state, of any type
`σ`. A `World` is that state together with the journal of everything that happened: which callable was called with
which arguments, and which delays were asked for, in order.
-/

namespace Cadence

/-- What a call comes to. -/
inductive Outcome
  /-- It gives a value. -/
  | returned (value : Value)
  /-- It fails and says why. -/
  | failed (message : String)
  | crashed

/-- An operation of a host whose state is a `σ`. -/
structure Callable (σ : Type) where
  /-- The name it was declared with. -/
  name : String
  signature : Signature
  /-- What it does with arguments in a state. -/
  act : List Value → σ → Outcome × σ

/-- The text that tells a callable from others. -/
def Callable.text {σ : Type} (c : Callable σ) : String :=
  "Callable(" ++ c.name ++ c.signature.text ++ ")"

/-- Something that happened. -/
inductive Event (σ : Type)
  /-- A callable was called. -/
  | called (callable : Callable σ) (arguments : List Value)
  /-- A delay was asked for. -/
  | waited (seconds : Binary64)

/-- The state of a host, and all that happened so far. -/
structure World (σ : Type) where
  state : σ
  journal : Array (Event σ)

namespace World

variable {σ : Type}

/-- A world in which nothing has happened. -/
def fresh (state : σ) : World σ :=
  ⟨state, #[]⟩

/-- Calls a callable, and notes the call. -/
def call (w : World σ) (c : Callable σ) (arguments : List Value) : Outcome × World σ :=
  let (outcome, state) := c.act arguments w.state
  (outcome, ⟨state, w.journal.push (.called c arguments)⟩)

/-- Notes that a delay was asked for. -/
def wait (w : World σ) (seconds : Binary64) : World σ :=
  { w with journal := w.journal.push (.waited seconds) }

/-- The delays that were asked for, in order. -/
def delays (w : World σ) : List Binary64 :=
  w.journal.toList.filterMap fun
    | .waited seconds => some seconds
    | .called _ _ => none

end World

end Cadence
