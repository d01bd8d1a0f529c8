import Cadence.Binary64.Layout
import Cadence.Number

/-!
# JSON texts

A JSON value is written on one line without blanks (`Json.compact`) or with one element a line, two columns
further in at each level (`Json.pretty`). Characters beyond ASCII stand for themselves; of the control characters,
five have letters and the others are written as four hexadecimal digits. There are no infinities in JSON: a
number that is not finite is written as `null`.
-/

namespace Cadence

inductive Json
  | null
  | boolean (value : Bool)
  | integer (value : Int)
  | number (value : Binary64)
  | string (value : String)
  | array (items : List Json)
  | object (fields : List (String × Json))

namespace Json

/-- A character as it is written between quotes. -/
def escape (c : Char) : List Char :=
  if c = '"' then ['\\', '"']
  else if c = '\\' then ['\\', '\\']
  else if c = '\x08' then ['\\', 'b']
  else if c = '\t' then ['\\', 't']
  else if c = '\n' then ['\\', 'n']
  else if c = '\x0c' then ['\\', 'f']
  else if c = '\r' then ['\\', 'r']
  else if c.toNat < 0x20 then
    ['\\', 'u', '0', '0', Nat.digitChar (c.toNat / 16), Nat.digitChar (c.toNat % 16)]
  else [c]

/-- A text between quotes. -/
def quoted (s : List Char) : List Char :=
  '"' :: s.flatMap escape ++ ['"']

/-- The text of a value without elements. -/
def atom : Json → List Char
  | null => ['n', 'u', 'l', 'l']
  | boolean true => ['t', 'r', 'u', 'e']
  | boolean false => ['f', 'a', 'l', 's', 'e']
  | integer i => decimalChars i
  | number x => if x.isFinite then x.chars .json else ['n', 'u', 'l', 'l']
  | string s => quoted s.toList
  | array _ => ['[', ']']
  | object _ => ['\x7b', '\x7d']

mutual

/-- A value on one line. -/
def compact : Json → List Char
  | array items => '[' :: [','].intercalate (compactEach items) ++ [']']
  | object fields => '\x7b' :: [','].intercalate (compactFields fields) ++ ['\x7d']
  | other => other.atom
termination_by structural j => j

def compactEach : List Json → List (List Char)
  | [] => []
  | j :: rest => j.compact :: compactEach rest
termination_by structural j => j

def compactFields : List (String × Json) → List (List Char)
  | [] => []
  | (name, j) :: rest => (quoted name.toList ++ ':' :: j.compact) :: compactFields rest
termination_by structural j => j

end

/-- A new line at a depth of nesting. -/
def newLine (depth : Nat) : List Char :=
  '\n' :: List.replicate (2 * depth) ' '

/-- Elements between brackets, one a line. -/
def block (left right : Char) (depth : Nat) (elements : List (List Char)) : List Char :=
  if elements.isEmpty then [left, right]
  else left :: newLine (depth + 1) ++ (',' :: newLine (depth + 1)).intercalate elements ++ newLine depth ++ [right]

mutual

/-- A value at a depth of nesting, with one element a line. -/
def prettyAt (depth : Nat) : Json → List Char
  | array items => block '[' ']' depth (prettyEach (depth + 1) items)
  | object fields => block '\x7b' '\x7d' depth (prettyFields (depth + 1) fields)
  | other => other.atom
termination_by structural j => j

def prettyEach (depth : Nat) : List Json → List (List Char)
  | [] => []
  | j :: rest => j.prettyAt depth :: prettyEach depth rest
termination_by structural j => j

def prettyFields (depth : Nat) : List (String × Json) → List (List Char)
  | [] => []
  | (name, j) :: rest => (quoted name.toList ++ ':' :: ' ' :: j.prettyAt depth) :: prettyFields depth rest
termination_by structural j => j

end

/-- The text of a value on one line. -/
def text (j : Json) : String :=
  String.ofList j.compact

/-- The text of a value with one element a line. -/
def prettyText (j : Json) : String :=
  String.ofList (j.prettyAt 0)

end Json

end Cadence
