import Cadence.Bound.Evaluation

/-!
# Binding programs

A program is bound in two sweeps over it, which differ only in what they do about the calls for numbers of passes. Each
sweep looks up every name, checks every number of arguments and checks the written numbers of passes, and its error is
that of the first bad place. The first sweep leaves it at that, so that nothing is called before the whole program was
looked at; the second one also makes the calls for numbers of passes, once each: from statement to statement, and
within a schedule those of the nested schedules, in order, before its own.
-/

namespace Cadence

variable {σ : Type}

/-! ## Looking up -/

/-- The callable for a call: it must be registered and accept the number of arguments. -/
def Registry.find (r : Registry σ) (name : String) (arguments : List Argument) : Except Error (Callable σ) :=
  match r.get? name with
  | none => .error (.unregistered r.kind name)
  | some c =>
    if c.signature.accepts arguments.length then .ok c
    else .error (.argumentMismatch r.kind name c.signature arguments)

mutual

/-- Looks up the callables of an argument among the functions. -/
def Argument.bound (functions : Registry σ) : Argument → Except Error (Bound.Argument σ)
  | .literal l => .ok (.literal l)
  | .list items => do
    let items ← Arguments.bound functions items
    return .list items
  | .map entries => do
    let entries ← Entries.bound functions entries
    return .map entries
  | .call name arguments => do
    let callable ← functions.find name arguments
    let arguments ← Arguments.bound functions arguments
    return .call name callable arguments
termination_by structural a => a

def Arguments.bound (functions : Registry σ) : List Argument → Except Error (List (Bound.Argument σ))
  | [] => .ok []
  | a :: rest => do
    let a ← a.bound functions
    let rest ← Arguments.bound functions rest
    return a :: rest
termination_by structural a => a

/-- Looks up the callables of the entries of a map, each key before its value. -/
def Entries.bound (functions : Registry σ) :
    Entries → Except Error (List (Bound.Argument σ × Bound.Argument σ))
  | [] => .ok []
  | (k, v) :: rest => do
    let k ← k.bound functions
    let v ← v.bound functions
    let rest ← Entries.bound functions rest
    return (k, v) :: rest
termination_by structural a => a

end

/-- Looks up a call in a registry, and its arguments among the functions. -/
def Call.bound (registry functions : Registry σ) (c : Call) : Except Error (Bound.Call σ) := do
  let callable ← registry.find c.name c.arguments
  let arguments ← Arguments.bound functions c.arguments
  return ⟨c.name, callable, arguments⟩

/-! ## Sweeps -/

/-- What a sweep over a program does about the calls for numbers of passes. -/
inductive Sweep
  /-- It only looks them up; one pass stands in the place of their answers. -/
  | checking
  /-- It makes them. -/
  | asking
deriving DecidableEq, Repr

/-- Checks the number of passes of `schedule`, or looks up the call for it, which is made if the sweep asks. -/
def Repeat.bind (sweep : Sweep) (functions : Registry σ) (schedule : Schedule) : Repeat → Host σ Bound.Passes
  | .times n => Host.ofResult (if n = 0 then .error (.zeroPasses schedule) else .ok (.times n))
  | .forever => pure .forever
  | .call c => do
    let c ← Host.ofResult (c.bound functions functions)
    match sweep with
    | .checking => return .times 1
    | .asking => do
      let value ← c.invoke
      let n ← Host.ofResult (c.passes value)
      return .times n

/-- The items of a schedule, with the interval zero for none. -/
def Bound.orZero {π : Type} (items : List (Bound.Item σ π)) : List (Bound.Item σ π) :=
  if items.isEmpty then [.interval .zero] else items

mutual

def Item.bind (sweep : Sweep) (functions : Registry σ) : Item → Host σ (Bound.Item σ Bound.Passes)
  | .interval n => pure (.interval n.toBinary64)
  | .call c => do
    let c ← Host.ofResult (c.bound functions functions)
    return .call c
  | .schedule items passes => do
    let bound ← Items.bind sweep functions items
    let passes ← passes.bind sweep functions ⟨items, passes⟩
    return .schedule (Bound.orZero bound) passes
termination_by structural a => a

def Items.bind (sweep : Sweep) (functions : Registry σ) : List Item → Host σ (List (Bound.Item σ Bound.Passes))
  | [] => pure []
  | a :: rest => do
    let a ← a.bind sweep functions
    let rest ← Items.bind sweep functions rest
    return a :: rest
termination_by structural a => a

end

/-- Binds a schedule: its items, and then its number of passes. -/
def Schedule.bind (sweep : Sweep) (functions : Registry σ) (s : Schedule) :
    Host σ (Bound.Schedule σ Bound.Passes) := do
  let items ← Items.bind sweep functions s.items
  let passes ← s.passes.bind sweep functions s
  return ⟨Bound.orZero items, passes⟩

/-- Binds a statement: its action is looked up among the actions, all other calls among the functions. -/
def Statement.bind (sweep : Sweep) (actions functions : Registry σ) (s : Statement) :
    Host σ (Bound.Statement σ Bound.Passes) := do
  let action ← Host.ofResult (s.action.bound actions functions)
  let schedule ← s.schedule.bind sweep functions
  return ⟨action, schedule, s.text⟩

/-- Binds a program: goes over it once to check it, and once more to ask for the numbers of passes that calls give. -/
def Statements.bind (actions functions : Registry σ) (statements : List Statement) :
    Host σ (List (Bound.Statement σ Bound.Passes)) := do
  let _ ← statements.mapM (Statement.bind .checking actions functions)
  statements.mapM (Statement.bind .asking actions functions)

end Cadence
