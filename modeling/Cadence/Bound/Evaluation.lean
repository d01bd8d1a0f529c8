import Cadence.Bound.Basic

/-!
# Evaluation of bound calls

The arguments of a call are evaluated from left to right and inside out, keys of a map before their values, and
then the callable is called once. The first failure ends the evaluation; the world keeps what happened up to it.
-/

namespace Cadence

/-- A computation that acts on the world and may fail. -/
abbrev Host (σ : Type) := ExceptT Error (StateM (World σ))

variable {σ : Type}

/-- A result as a computation that leaves the world alone. -/
def Host.ofResult {α : Type} (result : Except Error α) : Host σ α := fun w =>
  (result, w)

/-- Calls a callable for a call that the program names `name`. -/
def Callable.call (c : Callable σ) (name : String) (arguments : List Value) : Host σ Value := fun w =>
  match w.call c arguments with
  | (.returned value, w') => (.ok value, w')
  | (.failed reason, w') => (.error (.callFailed name reason), w')
  | (.crashed, w') => (.error .crashed, w')

namespace Bound

mutual

def Argument.evaluate : Argument σ → Host σ Value
  | .literal l => pure l.toValue
  | .list items => do
    let values ← Arguments.evaluate items
    return .list values
  | .map entries => do
    let values ← Entries.evaluate entries
    return .map values
  | .call name callable arguments => do
    let values ← Arguments.evaluate arguments
    callable.call name values
termination_by structural a => a

def Arguments.evaluate : List (Argument σ) → Host σ (List Value)
  | [] => pure []
  | a :: rest => do
    let value ← a.evaluate
    let values ← Arguments.evaluate rest
    return value :: values
termination_by structural a => a

def Entries.evaluate : List (Argument σ × Argument σ) → Host σ (List (Value × Value))
  | [] => pure []
  | (k, v) :: rest => do
    let key ← k.evaluate
    let value ← v.evaluate
    let values ← Entries.evaluate rest
    return (key, value) :: values
termination_by structural a => a

end

/-- Evaluates the arguments of a call and calls its callable. -/
def Call.invoke (c : Call σ) : Host σ Value := do
  let values ← Arguments.evaluate c.arguments
  c.callable.call c.name values

/-- The interval that a value of a call stands for: a finite number that is not negative. -/
def Call.interval (c : Call σ) (value : Value) : Except Error Binary64 :=
  match value.toBinary64? with
  | some x => if x.isFinite && Binary64.zero.le x then .ok x else .error (.notAnInterval c.name value)
  | none => .error (.notAnInterval c.name value)

/-- The number of passes that a value of a call stands for: a positive whole number, and the greatest number of 64
bits for those beyond it. -/
def Call.passes (c : Call σ) (value : Value) : Except Error UInt64 :=
  match value.toBinary64? with
  | some x =>
    if x.isWhole && (Binary64.ofInt 1).le x && x.le (.ofInt UInt64.size) then
      .ok (UInt64.ofNat (x.clamp 0 (UInt64.size - 1)).toNat)
    else .error (.invalidPasses c.text value)
  | none => .error (.notAnInterval c.name value)

end Bound

end Cadence
