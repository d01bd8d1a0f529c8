import Cadence.Program.Basic
import Cadence.Text.Quoted

/-!
# The written form of programs

Every part of a program has one written form, on one line: arguments and items are set apart by a comma and a
blank, a schedule always tells its number of passes, and strings are quoted.
-/

namespace Cadence

/-- Texts in a row, each but the first after a comma and a blank. -/
def commaSeparated : List (List Char) → List Char
  | [] => []
  | [s] => s
  | s :: rest => s ++ ',' :: ' ' :: commaSeparated rest

def booleanChars (b : Bool) : List Char :=
  if b then ['t', 'r', 'u', 'e'] else ['f', 'a', 'l', 's', 'e']

def Literal.chars : Literal → List Char
  | .number n => n.chars
  | .string s => Quoted.encode s.toList
  | .boolean b => booleanChars b

mutual

def Argument.chars : Argument → List Char
  | .literal l => l.chars
  | .list items => '[' :: commaSeparated (Arguments.charsOfEach items) ++ [']']
  | .map entries => '\x7b' :: commaSeparated (Entries.charsOfEach entries) ++ ['\x7d']
  | .call name arguments => name.toList ++ '(' :: commaSeparated (Arguments.charsOfEach arguments) ++ [')']
termination_by structural a => a

def Arguments.charsOfEach : List Argument → List (List Char)
  | [] => []
  | a :: rest => a.chars :: Arguments.charsOfEach rest
termination_by structural a => a

def Entries.charsOfEach : Entries → List (List Char)
  | [] => []
  | (k, v) :: rest => (k.chars ++ ':' :: ' ' :: v.chars) :: Entries.charsOfEach rest
termination_by structural a => a

end

def Arguments.chars (arguments : List Argument) : List Char :=
  commaSeparated (Arguments.charsOfEach arguments)

def Call.chars (c : Call) : List Char :=
  c.toArgument.chars

def Repeat.chars : Repeat → List Char
  | .times n => Nat.toDigits 10 n.toNat
  | .forever => ['*']
  | .call c => c.chars

mutual

def Item.chars : Item → List Char
  | .interval n => n.chars
  | .call c => c.chars
  | .schedule items passes => '[' :: commaSeparated (Items.charsOfEach items) ++ ']' :: ':' :: passes.chars
termination_by structural a => a

def Items.charsOfEach : List Item → List (List Char)
  | [] => []
  | a :: rest => a.chars :: Items.charsOfEach rest
termination_by structural a => a

end

def Schedule.chars (s : Schedule) : List Char :=
  s.toItem.chars

def Statement.chars (s : Statement) : List Char :=
  s.action.chars ++ '@' :: s.schedule.chars

def Argument.text (a : Argument) : String := String.ofList a.chars

def Call.text (c : Call) : String := String.ofList c.chars

def Schedule.text (s : Schedule) : String := String.ofList s.chars

def Statement.text (s : Statement) : String := String.ofList s.chars

end Cadence
