import Cadence.Program.Basic
import Cadence.Json

/-!
# Programs as JSON

The JSON value of a program shows its tree: arguments, items and numbers of passes are objects with one field
that names their kind, number literals and other literals stand for themselves, and a map is an array of pairs.
-/

namespace Cadence

def Number.toJson : Number → Json
  | .int i => .integer i.toInt
  | .float x => .number x

def Literal.toJson : Literal → Json
  | .number n => n.toJson
  | .string s => .string s
  | .boolean b => .boolean b

mutual

def Argument.toJson : Argument → Json
  | .literal l => .object [("literal", l.toJson)]
  | .list items => .object [("list", .object [("items", .array (Arguments.toJson items))])]
  | .map entries => .object [("map", .object [("entries", .array (Entries.toJson entries))])]
  | .call name arguments =>
    .object [("call", .object [("name", .string name), ("args", .array (Arguments.toJson arguments))])]
termination_by structural a => a

def Arguments.toJson : List Argument → List Json
  | [] => []
  | a :: rest => a.toJson :: Arguments.toJson rest
termination_by structural a => a

def Entries.toJson : Entries → List Json
  | [] => []
  | (k, v) :: rest => .array [k.toJson, v.toJson] :: Entries.toJson rest
termination_by structural a => a

end

def Call.toJson (c : Call) : Json :=
  .object [("name", .string c.name), ("args", .array (Arguments.toJson c.arguments))]

def Repeat.toJson : Repeat → Json
  | .times n => .object [("times", .integer n.toNat)]
  | .forever => .string "forever"
  | .call c => .object [("call", c.toJson)]

mutual

def Item.toJson : Item → Json
  | .interval n => .object [("interval", n.toJson)]
  | .call c => .object [("call", c.toJson)]
  | .schedule items passes =>
    .object [("schedule", .object [("items", .array (Items.toJson items)), ("repeat", passes.toJson)])]
termination_by structural a => a

def Items.toJson : List Item → List Json
  | [] => []
  | a :: rest => a.toJson :: Items.toJson rest
termination_by structural a => a

end

def Schedule.toJson (s : Schedule) : Json :=
  .object [("items", .array (Items.toJson s.items)), ("repeat", s.passes.toJson)]

def Statement.toJson (s : Statement) : Json :=
  .object [("action", s.action.toJson), ("schedule", s.schedule.toJson)]

/-- A program in JSON. -/
def Statements.toJson (statements : List Statement) : Json :=
  .array (statements.map Statement.toJson)

end Cadence
