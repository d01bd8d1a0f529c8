import Cadence.Callable.Signature
import Cadence.Program.Printer
import Cadence.Text.Place
import Cadence.Value

/-!
# Errors

Everything that can go wrong between a program text and its run, as causes; `Error.message` words them.
-/

namespace Cadence

/-- The two kinds of callables. -/
inductive Kind
  | action
  /-- What gives values to arguments, intervals and numbers of passes. -/
  | function
deriving DecidableEq, Repr

def Kind.word : Kind → String
  | action => "action"
  | function => "function"

/-- What can go wrong. -/
inductive Error
  /-- The text is no program. -/
  | malformed (complaint : SyntaxError)
  /-- A call names no callable of its kind. -/
  | unregistered (kind : Kind) (name : String)
  /-- A call has too few or too many arguments. -/
  | argumentMismatch (kind : Kind) (name : String) (expected : Signature) (provided : List Argument)
  /-- A name is already taken. -/
  | duplicate (kind : Kind) (name : String)
  /-- A schedule is to be gone through no times. -/
  | zeroPasses (schedule : Schedule)
  /-- A call for a number of passes gave a number that is not a positive whole number. -/
  | invalidPasses (call : String) (value : Value)
  /-- A cursor is used after its end. -/
  | exhausted
  /-- A call gave a value that is no interval. -/
  | notAnInterval (name : String) (value : Value)
  | callFailed (name : String) (reason : String)
  | crashed
  /-- One of several runs broke down. -/
  | runLost

def Error.message : Error → String
  | malformed complaint => "syntax error: " ++ complaint.message
  | unregistered kind name => "unregistered " ++ kind.word ++ ": '" ++ name ++ "'"
  | argumentMismatch kind name expected provided =>
    "argument mismatch for " ++ kind.word ++ " '" ++ name ++ "': expected signature " ++ expected.text
      ++ ", provided arguments [" ++ String.ofList (Arguments.chars provided) ++ "]"
  | duplicate kind name => kind.word ++ " '" ++ name ++ "' is already registered"
  | zeroPasses schedule => "invalid repeat: schedule " ++ schedule.text ++ " repeats zero times"
  | invalidPasses call value =>
    "invalid repeat: " ++ call ++ " returned " ++ value.text ++ ", expected a positive whole number"
  | exhausted => "schedule iterator is exhausted"
  | notAnInterval name value => "cannot use result of '" ++ name ++ "' as an interval: " ++ value.text
  | callFailed name reason => "call to '" ++ name ++ "' failed: " ++ reason
  | crashed => "call crashed"
  | runLost => "schedule task failed"

end Cadence
