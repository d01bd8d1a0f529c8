import Cadence.Value

/-!
# Built-in functions

The functions that programs can always call. Those that draw at random take the number thrown as an argument. A
function gives a value or says why it fails.
-/

namespace Cadence.Builtin

/-- The words for an argument of the wrong sort; arguments are counted from one. -/
def wrongArgument (function : String) (index : Nat) (sort : String) : String :=
  function ++ ": argument " ++ toString (index + 1) ++ " is not " ++ sort

/-- An argument as a number. -/
def number (function : String) (arguments : List Value) (index : Nat) : Except String Binary64 :=
  match arguments[index]?.bind Value.toBinary64? with
  | some x => .ok x
  | none => .error (wrongArgument function index "a number")

/-- An argument as an integer; a whole binary64 number stands for the integer of 64 bits next to it. -/
def integer (function : String) (arguments : List Value) (index : Nat) : Except String Int :=
  match arguments[index]? with
  | some (.int i) => .ok i.toInt
  | some (.float x) =>
    if x.isWhole then .ok (x.clamp Int64.minValue.toInt Int64.maxValue.toInt)
    else .error (wrongArgument function index "an integer")
  | _ => .error (wrongArgument function index "an integer")

/-- A number from `low` to below `high`, at a fraction of the way that the throw decides. -/
def between (low high : Binary64) (thrown : Nat) : Binary64 :=
  let fraction := Binary64.ofUnits false (thrown % (2 * binade) * unitsPerOne) (2 * binade)
  let x := low.add (fraction.mul (high.sub low))
  if x.lt high then x else low

/-- Draws a number from an interval. The outcome is missing if the interval is too wide to be measured. -/
def uniform (thrown : Nat) (arguments : List Value) : Except String (Option Value) := do
  let low ← number "uniform" arguments 0
  let high ← number "uniform" arguments 1
  if !(low.isFinite && high.isFinite) || high.lt low then
    .error ("uniform: invalid range " ++ low.text .plain ++ ".." ++ high.text .plain)
  else if low.equals high then return some (.float low)
  else if (high.sub low).isFinite then return some (.float (between low high thrown))
  else return none

/-- Draws an integer from a range with both ends included. -/
def randint (thrown : Nat) (arguments : List Value) : Except String Value := do
  let low ← integer "randint" arguments 0
  let high ← integer "randint" arguments 1
  if high < low then .error ("randint: invalid range " ++ toString low ++ "..=" ++ toString high)
  else return .int (Int64.ofInt (low + thrown % (high - low + 1).toNat))

/-- Draws an element of a list. -/
def choice (thrown : Nat) : List Value → Except String Value
  | .list items :: _ =>
    match items[thrown % items.length]? with
    | some v => .ok v
    | none => .error "choice: empty list"
  | _ => .error "choice: expected a list"

/-- Goes through the arguments from the one at `index` on and keeps the best; another one is taken only if it is
better. -/
def bestFrom (function : String) (better : Binary64 → Binary64 → Bool) (best : Binary64 × Value) (index : Nat) :
    List Value → Except String Value
  | [] => .ok best.2
  | v :: rest =>
    match v.toBinary64? with
    | none => .error (wrongArgument function index "a number")
    | some x => bestFrom function better (if better x best.1 then (x, v) else best) (index + 1) rest

/-- The first of the arguments that no other is better than. -/
def extreme (function : String) (better : Binary64 → Binary64 → Bool) : List Value → Except String Value
  | [] => .error (function ++ ": no arguments")
  | v :: rest =>
    match v.toBinary64? with
    | none => .error (wrongArgument function 0 "a number")
    | some x => bestFrom function better (x, v) 1 rest

def least (arguments : List Value) : Except String Value :=
  extreme "min" Binary64.lt arguments

def greatest (arguments : List Value) : Except String Value :=
  extreme "max" (fun x y => y.lt x) arguments

/-- Adds the numbers from the one at `index` on to a binary64 sum. -/
def addNumbers (sum : Binary64) (index : Nat) : List Value → Except String Value
  | [] => .ok (.float sum)
  | v :: rest =>
    match v.toBinary64? with
    | none => .error (wrongArgument "add" index "a number")
    | some x => addNumbers (sum.add x) (index + 1) rest

/-- Adds the integers from the one at `index` on to an integer sum; from the first argument that is no integer on,
the sum is a binary64 number. -/
def addIntegers (sum : Int64) (index : Nat) : List Value → Except String Value
  | [] => .ok (.int sum)
  | .int i :: rest =>
    match fitInt64 (sum.toInt + i.toInt) with
    | some sum => addIntegers sum (index + 1) rest
    | none => .error "add: integer overflow"
  | arguments => addNumbers (.ofInt sum.toInt) index arguments

def add (arguments : List Value) : Except String Value :=
  addIntegers 0 0 arguments

/-- The texts of the arguments, with blanks between them. -/
def joined (arguments : List Value) : String :=
  String.intercalate " " (arguments.map Value.text)

end Cadence.Builtin
