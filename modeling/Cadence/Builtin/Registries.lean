import Cadence.Builtin.Console
import Cadence.Builtin.Functions
import Cadence.Scheduler

/-!
# Built-in callables

The actions `print` and `log` and the functions of `Cadence.Builtin`, as callables of any host that has a console.
-/

namespace Cadence.Builtin

variable {σ : Type} [HasConsole σ]

/-- What a result comes to. -/
def outcome : Except String Value → Outcome
  | .ok value => .returned value
  | .error reason => .failed reason

/-- A callable that puts something out. -/
def putting (name : String) (signature : Signature) (act : List Value → Output × Value) : Callable σ where
  name := name
  signature := signature
  act arguments state :=
    let (output, value) := act arguments
    (.returned value, HasConsole.withConsole state ((HasConsole.console state).put output))

/-- A callable that only looks at its arguments. -/
def computing (name : String) (signature : Signature) (act : List Value → Except String Value) : Callable σ where
  name := name
  signature := signature
  act arguments state := (outcome (act arguments), state)

/-- A callable that throws a die. -/
def drawing (name : String) (signature : Signature) (act : Nat → List Value → Outcome) : Callable σ where
  name := name
  signature := signature
  act arguments state :=
    let (thrown, console) := (HasConsole.console state).throw
    (act thrown arguments, HasConsole.withConsole state console)

def logTopic : String := "funcsched::action"

def actionList : List (Callable σ) :=
  let signature := (Signature.positional []).withVariadic "args"
  [ putting "print" signature fun arguments => (.printed (joined arguments), .string (joined arguments)),
    putting "log" signature fun arguments => (.logged ⟨.info, logTopic, joined arguments, []⟩, .null) ]

def functionList : List (Callable σ) :=
  let some? : Except String (Option Value) → Outcome
    | .ok (some value) => .returned value
    | .ok none => .crashed
    | .error reason => .failed reason
  [ drawing "uniform" (.positional ["lo", "hi"]) fun thrown arguments => some? (uniform thrown arguments),
    drawing "randint" (.positional ["lo", "hi"]) fun thrown arguments => outcome (randint thrown arguments),
    drawing "choice" (.positional ["items"]) fun thrown arguments => outcome (choice thrown arguments),
    computing "min" ((Signature.positional ["first"]).withVariadic "rest") least,
    computing "max" ((Signature.positional ["first"]).withVariadic "rest") greatest,
    computing "add" ((Signature.positional []).withVariadic "terms") add ]

/-- A registry of callables whose names are all different. -/
def registry (kind : Kind) (callables : List (Callable σ)) : Registry σ :=
  ⟨kind, callables.map fun c => (c.name, c)⟩

/-- The scheduler with the built-in callables. -/
def scheduler : Scheduler σ :=
  ⟨registry .action actionList, registry .function functionList⟩

end Cadence.Builtin
