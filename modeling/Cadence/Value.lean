import Cadence.Program.Printer
import Cadence.Program.Json
import Cadence.Binary64.Numeral

/-!
# Values

Values are what callables take and give. Many of them count as a number (`Value.toBinary64?`): integers and
binary64 numbers, truth values as zero and one, and strings that read as a number.
-/

namespace Cadence

inductive Value
  | null
  | boolean (value : Bool)
  | int (value : Int64)
  | float (value : Binary64)
  | string (value : String)
  | list (items : List Value)
  | map (entries : List (Value × Value))

def Literal.toValue : Literal → Value
  | .number (.int i) => .int i
  | .number (.float x) => .float x
  | .string s => .string s
  | .boolean b => .boolean b

namespace Value

/-- The number that a value counts as, if any. -/
def toBinary64? : Value → Option Binary64
  | int i => some (.ofInt i.toInt)
  | float x => some x
  | boolean b => some (.ofInt (if b then 1 else 0))
  | string s => Binary64.ofChars? s.toList
  | _ => none

/-- The text of a string value. -/
def toString? : Value → Option String
  | string s => some s
  | _ => none

def isNull : Value → Bool
  | null => true
  | _ => false

mutual

/-- The text of a value within a list or map, where strings are quoted. -/
def nestedChars : Value → List Char
  | null => ['n', 'u', 'l', 'l']
  | boolean b => booleanChars b
  | int i => decimalChars i.toInt
  | float x => x.chars .program
  | string s => Quoted.encode s.toList
  | list items => '[' :: commaSeparated (charsOfEach items) ++ [']']
  | map entries => '\x7b' :: commaSeparated (charsOfEntries entries) ++ ['\x7d']
termination_by structural v => v

def charsOfEach : List Value → List (List Char)
  | [] => []
  | v :: rest => v.nestedChars :: charsOfEach rest
termination_by structural v => v

def charsOfEntries : List (Value × Value) → List (List Char)
  | [] => []
  | (k, v) :: rest => (k.nestedChars ++ ':' :: ' ' :: v.nestedChars) :: charsOfEntries rest
termination_by structural v => v

end

/-- The text of a value on its own, where a string stands for itself. -/
def text : Value → String
  | string s => s
  | other => String.ofList other.nestedChars

mutual

/-- Whether two values are equal: numbers of one kind as numbers, everything else by its form. -/
def equals : Value → Value → Bool
  | null, null => true
  | boolean a, boolean b => a == b
  | int a, int b => a == b
  | float a, float b => a.equals b
  | string a, string b => a == b
  | list a, list b => equalsEach a b
  | map a, map b => equalsEntries a b
  | _, _ => false
termination_by structural v => v

def equalsEach : List Value → List Value → Bool
  | [], [] => true
  | a :: as, b :: bs => a.equals b && equalsEach as bs
  | _, _ => false
termination_by structural v => v

/-- Whether two maps have equal entries in the same order. -/
def equalsEntries : List (Value × Value) → List (Value × Value) → Bool
  | [], [] => true
  | (k, v) :: as, (l, w) :: bs => k.equals l && v.equals w && equalsEntries as bs
  | _, _ => false
termination_by structural v => v

end

mutual

/-- A value in JSON; a map is an array of pairs. -/
def toJson : Value → Json
  | null => .null
  | boolean b => .boolean b
  | int i => .integer i.toInt
  | float x => .number x
  | string s => .string s
  | list items => .array (toJsonEach items)
  | map entries => .array (toJsonEntries entries)
termination_by structural v => v

def toJsonEach : List Value → List Json
  | [] => []
  | v :: rest => v.toJson :: toJsonEach rest
termination_by structural v => v

def toJsonEntries : List (Value × Value) → List Json
  | [] => []
  | (k, v) :: rest => .array [k.toJson, v.toJson] :: toJsonEntries rest
termination_by structural v => v

end

instance : Inhabited Value := ⟨null⟩

end Value

end Cadence
