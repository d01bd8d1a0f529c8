import Cadence.Number

/-!
# Programs

A program is a list of statements; a statement times an action by a schedule. The arguments of a call are
literals, lists, maps and further calls. A schedule is a row of items (intervals, calls that yield an interval,
and schedules) that is gone through a number of times.

The entries of a map stand in the order in which their keys came first (`Entries.insert`); number keys are
compared as numbers and all other keys by their form (`Argument.sameKey`).
-/

namespace Cadence

inductive Literal
  | number (value : Number)
  | string (value : String)
  | boolean (value : Bool)
deriving DecidableEq

/-- An argument of a call, an element of a list, or a key or value of a map. -/
inductive Argument
  | literal (value : Literal)
  | list (items : List Argument)
  | map (entries : List (Argument × Argument))
  | call (name : String) (arguments : List Argument)

/-- The keys and values of a map, in order. -/
abbrev Entries := List (Argument × Argument)

/-- A call: a name and arguments. -/
structure Call where
  name : String
  arguments : List Argument

def Call.toArgument (c : Call) : Argument :=
  .call c.name c.arguments

inductive Repeat
  | times (count : UInt64)
  | forever
  /-- As often as a call says, which is asked once, when the program is bound. -/
  | call (call : Call)

inductive Item
  /-- A fixed interval, in seconds. -/
  | interval (seconds : Number)
  /-- An interval that a call yields each time it is reached. -/
  | call (call : Call)
  /-- A schedule within the schedule. -/
  | schedule (items : List Item) (passes : Repeat)

/-- A schedule: a row of items and the number of passes over it. -/
structure Schedule where
  items : List Item
  passes : Repeat

def Schedule.toItem (s : Schedule) : Item :=
  .schedule s.items s.passes

/-- A schedule of the given items, with the interval zero for none. -/
def Schedule.ofItems (items : List Item) (passes : Repeat) : Schedule :=
  ⟨if items.isEmpty then [.interval (.int 0)] else items, passes⟩

/-- An action and the schedule that times it. -/
structure Statement where
  action : Call
  schedule : Schedule

/-! ## Equality

Numbers within arguments are compared as numbers of their kind, so that the two zeros are equal; everything else is
equal if it has the same form. -/

def Literal.equals : Literal → Literal → Bool
  | .number a, .number b => a.equals b
  | .string a, .string b => a == b
  | .boolean a, .boolean b => a == b
  | _, _ => false

mutual

def Argument.equals : Argument → Argument → Bool
  | .literal a, .literal b => a.equals b
  | .list a, .list b => Arguments.equals a b
  | .map a, .map b => Entries.equals a b
  | .call f a, .call g b => f == g && Arguments.equals a b
  | _, _ => false
termination_by structural a => a

def Arguments.equals : List Argument → List Argument → Bool
  | [], [] => true
  | a :: as, b :: bs => a.equals b && Arguments.equals as bs
  | _, _ => false
termination_by structural a => a

/-- Whether two maps have equal entries in the same order. -/
def Entries.equals : Entries → Entries → Bool
  | [], [] => true
  | (k, v) :: es, (l, w) :: fs => k.equals l && v.equals w && Entries.equals es fs
  | _, _ => false
termination_by structural a => a

end

def Call.equals (a b : Call) : Bool :=
  a.name == b.name && Arguments.equals a.arguments b.arguments

def Repeat.equals : Repeat → Repeat → Bool
  | .times m, .times n => m == n
  | .forever, .forever => true
  | .call a, .call b => a.equals b
  | _, _ => false

mutual

def Item.equals : Item → Item → Bool
  | .interval a, .interval b => a.equals b
  | .call a, .call b => a.equals b
  | .schedule a m, .schedule b n => Items.equals a b && m.equals n
  | _, _ => false
termination_by structural a => a

def Items.equals : List Item → List Item → Bool
  | [], [] => true
  | a :: as, b :: bs => a.equals b && Items.equals as bs
  | _, _ => false
termination_by structural a => a

end

def Statement.equals (a b : Statement) : Bool :=
  a.action.equals b.action && a.schedule.toItem.equals b.schedule.toItem

/-! ## Maps -/

/-- Whether two arguments are one key of a map: number literals if they are the same number, whichever kind they
are of, and all other arguments if they are equal. -/
def Argument.sameKey : Argument → Argument → Bool
  | .literal (.number a), .literal (.number b) => a.toBinary64.equals b.toBinary64
  | a, b => a.equals b

namespace Entries

/-- Puts a value under a key: in the place of the value that the key has, under the key's first spelling, or else
at the end. Gives the value that was replaced. -/
def insert (key value : Argument) : Entries → Option Argument × Entries
  | [] => (none, [(key, value)])
  | (k, v) :: rest =>
    if k.sameKey key then (some v, (k, value) :: rest)
    else
      let (old, rest') := insert key value rest
      (old, (k, v) :: rest')

/-- The value under a key. -/
def get? (key : Argument) : Entries → Option Argument
  | [] => none
  | (k, v) :: rest => if k.sameKey key then some v else get? key rest

/-- The entries of a map to which the given ones are added one after another. -/
def ofList (added : List (Argument × Argument)) : Entries :=
  added.foldl (fun entries e => (insert e.1 e.2 entries).2) []

/-- Inserting gives back what was found under the key before. -/
theorem insert_fst (key value : Argument) (es : Entries) : (insert key value es).1 = get? key es := by
  induction es with
  | nil => rfl
  | cons e es ih =>
    obtain ⟨k, v⟩ := e
    by_cases h : k.sameKey key = true <;> simp [insert, get?, h, ih]

/-- A map grows by one entry if its key is new, and keeps its size otherwise. -/
theorem length_insert (key value : Argument) (es : Entries) :
    (insert key value es).2.length = es.length + if (get? key es).isSome then 0 else 1 := by
  induction es with
  | nil => rfl
  | cons e es ih =>
    obtain ⟨k, v⟩ := e
    by_cases h : k.sameKey key = true
    · simp [insert, get?, h]
    · simp [insert, get?, h, ih]; omega

end Entries

end Cadence
