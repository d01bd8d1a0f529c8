import Cadence.Number
import Cadence.Text.Place

/-!
# Complaints about program texts

Reading stops at the first fault. A `Complaint` says what the fault is and holds the text from the fault on, so
its place follows from how much of the source is left, and the character found there is the first of that text.
-/

namespace Cadence

/-- What was to be read where something else stands. -/
inductive Expectation
  | action
  | schedule
  | scheduleEnd
  | atSign
  | item
  | passes
  | argumentList (name : List Char)
  | argumentListEnd
  | argument
  | listEnd
  | mapColon
  | mapEnd
  | parenthesisEnd
  | number
  | inputEnd
deriving DecidableEq, Repr

def Expectation.words : Expectation → String
  | action => "expected action call"
  | schedule => "expected '[' to open schedule"
  | scheduleEnd => "expected ']' to close schedule"
  | atSign => "expected '@' after action call"
  | item => "expected interval, function call or nested schedule"
  | passes => "expected repeat count, '*' or function call"
  | argumentList name => "expected '(' after '" ++ String.ofList name ++ "'"
  | argumentListEnd => "expected ')' to close argument list"
  | argument => "expected argument"
  | listEnd => "expected ']' to close list"
  | mapColon => "expected ':' after map key"
  | mapEnd => "expected '\x7d' to close map"
  | parenthesisEnd => "expected ')' to close parenthesised expression"
  | number => "expected number"
  | inputEnd => "expected end of input"

/-- What can be wrong with a program text. -/
inductive Fault
  /-- Something else was to be read. -/
  | expected (what : Expectation)
  /-- A bracket opens one level too many. -/
  | tooDeep
  /-- A number of passes does not fit 64 bits. -/
  | passesOutOfRange (digits : List Char)
  /-- No quote ends a string. -/
  | unterminatedString
  /-- A point has no digit on either side. -/
  | noDigits
  /-- A number with a point or an exponent is beyond the binary64 range. -/
  | numberOutOfRange (text : List Char)
  /-- An integer does not fit 64 bits. -/
  | integerOutOfRange (text : List Char)
  /-- A name is neither called nor a truth value. -/
  | strayName (name : List Char)
  /-- An operation on number literals has no result. -/
  | arithmetic (fault : ArithmeticFault)
deriving DecidableEq

/-- How many schedules, lists, maps, calls and parentheses may stand inside one another. -/
def maxNesting : Nat := 256

/-- The words for an operation without result. -/
def ArithmeticFault.words : ArithmeticFault → String
  | divisionByZero => "division by zero in constant expression"
  | overflow => "integer overflow in constant expression"
  | notFinite => "constant expression is not finite"

/-- The words for a fault, given the character that stands at its place. -/
def Fault.words (found : Option Char) : Fault → String
  | expected what =>
    what.words ++ match found with
      | some c => ", found '" ++ c.toString ++ "'"
      | none => ", found end of input"
  | tooDeep => "nesting too deep (limit is " ++ toString maxNesting ++ ")"
  | passesOutOfRange digits => "repeat count '" ++ String.ofList digits ++ "' out of range"
  | unterminatedString => "unterminated string literal"
  | noDigits => "expected digits"
  | numberOutOfRange text => "invalid number '" ++ String.ofList text ++ "'"
  | integerOutOfRange text => "integer '" ++ String.ofList text ++ "' out of range"
  | strayName name => "unexpected identifier '" ++ String.ofList name ++ "', expected a call or literal"
  | arithmetic fault => fault.words

/-- A fault, and the text from its place on. -/
structure Complaint where
  fault : Fault
  rest : List Char
deriving DecidableEq

/-- A complaint about `source` with its words and place. -/
def Complaint.toSyntaxError (source : List Char) (c : Complaint) : SyntaxError :=
  ⟨c.fault.words c.rest.head?, Place.ofRest source c.rest⟩

end Cadence
