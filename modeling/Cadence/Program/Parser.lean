import Cadence.Program.Reading

/-!
# Reading programs

The grammar of programs, with blanks between any two tokens:

    program   := statement+
    statement := call '@' schedule
    schedule  := '[' (item (',' item)*)? ']' (':' passes)?
    item      := schedule | '+'? unsigned-number | call
    passes    := digits | '*' | call
    call      := name '(' (argument (',' argument)*)? ')'
    argument  := list | map | call | expression | string | 'true' | 'false'
    list      := '[' (argument (',' argument)*)? ']'
    map       := '{' (argument ':' argument (',' argument ':' argument)*)? '}'
    expression := term (('+' | '-') term)*
    term      := factor (('*' | '/') factor)*
    factor    := signed-number | '(' expression ')'

Expressions are worked out while they are read. Schedules, lists, maps, the argument lists of calls and
parentheses may stand at most `maxNesting` deep inside one another, and the passes of a schedule stand inside it:
the productions that nest take the number of levels that are left.
-/

namespace Cadence

/-! ## Expressions -/

/-- The operators between terms. -/
def additive? : Char → Option Operator
  | '+' => some .plus
  | '-' => some .minus
  | _ => none

/-- The operators between factors. -/
def multiplicative? : Char → Option Operator
  | '*' => some .times
  | '/' => some .dividedBy
  | _ => none

/-- Reads an expression over the given factors. -/
def expressionOf (factor : Production Number) : Production Number :=
  chain additive? (chain multiplicative? factor)

/-- Reads a factor, with so many levels left for parentheses. -/
def factor : Nat → Production Number
  | 0, s => if s.head? = some '(' then complain .tooDeep s else numberLiteral true s
  | levels + 1, s =>
    match s with
    | '(' :: r => do
      let inner ← expressionOf (factor levels) (skipBlanks r)
      let close ← mark ')' .parenthesisEnd (skipBlanks inner.rest)
      return ⟨inner.value, close.rest, by
        have := inner.rest_lt
        have := close.rest_lt
        have := length_skipBlanks_le r
        have := length_skipBlanks_le inner.rest
        simp; omega⟩
    | s => numberLiteral true s

/-- Reads an expression, with so many levels left for parentheses. -/
def expression (levels : Nat) : Production Number :=
  expressionOf (factor levels)

/-! ## Calls and arguments

The productions of this part take the production for the arguments one level further in, if a level is left. -/

/-- Reads what follows the name of a call: its arguments in parentheses. -/
def argumentList (inner : Option (Production Argument)) (called : List Char) : Production (List Argument) := fun s =>
  match inner with
  | none => complain .tooDeep s
  | some argument => do
    let opening ← mark '(' (.argumentList called) s
    let arguments ← delimited argument ')' .argumentListEnd opening.rest
    return ⟨arguments.value, arguments.rest, Nat.lt_trans arguments.rest_lt opening.rest_lt⟩

/-- Reads a call; `what` is what the reader of the text looks for. -/
def callOf (inner : Option (Production Argument)) (what : Expectation) : Production Call := fun s => do
  let called ← name what s
  let arguments ← argumentList inner called.value (skipBlanks called.rest)
  return ⟨⟨String.ofList called.value, arguments.value⟩, arguments.rest, by
    have := called.rest_lt
    have := arguments.rest_lt
    have := length_skipBlanks_le called.rest
    omega⟩

/-- Reads an argument that starts with a letter: a call if a parenthesis follows the name, or else a truth value. -/
def word (inner : Option (Production Argument)) : Production Argument := fun s => do
  let found ← name .argument s
  if (skipBlanks found.rest).head? = some '(' then do
    let call ← callOf inner .argument s
    return ⟨call.value.toArgument, call.rest, call.rest_lt⟩
  else if found.value = ['t', 'r', 'u', 'e'] then
    return ⟨.literal (.boolean true), found.rest, found.rest_lt⟩
  else if found.value = ['f', 'a', 'l', 's', 'e'] then
    return ⟨.literal (.boolean false), found.rest, found.rest_lt⟩
  else complain (.strayName found.value) s

/-- Reads a key and a value of a map. -/
def entry (argument : Production Argument) : Production (Argument × Argument) := fun s => do
  let key ← argument s
  let colon ← mark ':' .mapColon (skipBlanks key.rest)
  let value ← argument (skipBlanks colon.rest)
  return ⟨(key.value, value.value), value.rest, by
    have := key.rest_lt
    have := colon.rest_lt
    have := value.rest_lt
    have := length_skipBlanks_le key.rest
    have := length_skipBlanks_le colon.rest
    omega⟩

/-- Whether a number can start with a character. -/
def startsNumber (c : Char) : Bool :=
  c.isDigit || c == '.' || c == '+' || c == '-' || c == '('

def argumentOf (inner : Option (Production Argument)) (number : Production Number) : Production Argument
  | [] => complain (.expected .argument) []
  | '[' :: r =>
    match inner with
    | none => complain .tooDeep ('[' :: r)
    | some argument => do
      let items ← delimited argument ']' .listEnd r
      return ⟨.list items.value, items.rest, Nat.lt_succ_of_lt items.rest_lt⟩
  | '\x7b' :: r =>
    match inner with
    | none => complain .tooDeep ('\x7b' :: r)
    | some argument => do
      let entries ← delimited (entry argument) '\x7d' .mapEnd r
      return ⟨.map (Entries.ofList entries.value), entries.rest, Nat.lt_succ_of_lt entries.rest_lt⟩
  | '"' :: r =>
    match h : Quoted.decode r with
    | none => complain .unterminatedString ('"' :: r)
    | some found =>
      .ok ⟨.literal (.string (String.ofList found.1)), found.2,
        Nat.lt_succ_of_lt (Quoted.length_lt_of_decode h)⟩
  | c :: r =>
    if c.isAlpha then word inner (c :: r)
    else if startsNumber c then do
      let n ← number (c :: r)
      return ⟨.literal (.number n.value), n.rest, n.rest_lt⟩
    else complain (.expected .argument) (c :: r)

/-- Reads an argument, with so many levels left. -/
def argument : Nat → Production Argument
  | 0 => argumentOf none (expression 0)
  | levels + 1 => argumentOf (some (argument levels)) (expression (levels + 1))

/-- Reads a call, with so many levels left; `what` is what the reader of the text looks for. -/
def call (levels : Nat) (what : Expectation) : Production Call :=
  match levels with
  | 0 => callOf none what
  | inner + 1 => callOf (some (argument inner)) what

/-! ## Schedules and statements -/

def itemOf (inner : Production Schedule) (call : Production Call) : Production Item
  | [] => complain (.expected .item) []
  | '[' :: r => do
    let nested ← inner ('[' :: r)
    return ⟨nested.value.toItem, nested.rest, nested.rest_lt⟩
  | '+' :: r => do
    let seconds ← numberLiteral false r
    return ⟨.interval seconds.value, seconds.rest, Nat.lt_succ_of_lt seconds.rest_lt⟩
  | c :: r =>
    if c.isDigit || c == '.' then do
      let seconds ← numberLiteral false (c :: r)
      return ⟨.interval seconds.value, seconds.rest, seconds.rest_lt⟩
    else do
      let found ← call (c :: r)
      return ⟨.call found.value, found.rest, found.rest_lt⟩

def passesOf (call : Production Call) : Production Repeat
  | [] => complain (.expected .passes) []
  | '*' :: r => .ok ⟨.forever, r, Nat.lt_succ_self _⟩
  | c :: r =>
    if c.isDigit then
      let digits := c :: r.takeWhile Char.isDigit
      let count := Nat.ofDigitChars 10 digits 0
      if count < UInt64.size then
        .ok ⟨.times (UInt64.ofNat count), r.dropWhile Char.isDigit, length_dropWhile_lt Char.isDigit c r⟩
      else complain (.passesOutOfRange digits) (c :: r)
    else do
      let found ← call (c :: r)
      return ⟨.call found.value, found.rest, found.rest_lt⟩

/-- Reads a schedule, given the productions for what stands inside it. A schedule without passes is gone through
once. -/
def scheduleOf (inner : Production Schedule) (call : Expectation → Production Call) :
    Production Schedule := fun s => do
  let opening ← mark '[' .schedule s
  let items ← delimited (itemOf inner (call .item)) ']' .scheduleEnd opening.rest
  have items_lt : items.rest.length < s.length := Nat.lt_trans items.rest_lt opening.rest_lt
  match h : skipBlanks items.rest with
  | ':' :: r => do
    let passes ← passesOf (call .passes) (skipBlanks r)
    return ⟨Schedule.ofItems items.value passes.value, passes.rest, by
      have := passes.rest_lt
      have := length_skipBlanks_le r
      have := length_skipBlanks_le items.rest
      simp [h] at this
      omega⟩
  | _ =>
    return ⟨Schedule.ofItems items.value (.times 1), skipBlanks items.rest, by
      have := length_skipBlanks_le items.rest
      omega⟩

/-- Reads a schedule, with so many levels left. -/
def schedule : Nat → Production Schedule
  | 0 => fun s => complain .tooDeep s
  | levels + 1 => scheduleOf (schedule levels) (call levels)

def statement : Production Statement := fun s => do
  let action ← call maxNesting .action s
  let sign ← mark '@' .atSign (skipBlanks action.rest)
  let timing ← schedule maxNesting (skipBlanks sign.rest)
  return ⟨⟨action.value, timing.value⟩, timing.rest, by
    have := action.rest_lt
    have := sign.rest_lt
    have := timing.rest_lt
    have := length_skipBlanks_le action.rest
    have := length_skipBlanks_le sign.rest
    omega⟩

/-- Reads statements up to the end of the text. -/
def statements (s : List Char) : Except Complaint (List Statement) := do
  let first ← statement (skipBlanks s)
  have _first_lt : first.rest.length < s.length := Nat.lt_of_lt_of_le first.rest_lt (length_skipBlanks_le s)
  if (skipBlanks first.rest).isEmpty then return [first.value]
  else do
    let others ← statements first.rest
    return first.value :: others
termination_by s.length

/-- Reads a text as a whole: blanks, what the production reads, and blanks. -/
def whole {α : Type} (production : Production α) (s : List Char) : Except Complaint α := do
  let found ← production (skipBlanks s)
  if (skipBlanks found.rest).isEmpty then return found.value
  else complain (.expected .inputEnd) (skipBlanks found.rest)

/-! ## Texts -/

/-- The result of reading a text, with the words and place of a complaint. -/
def inSource {α : Type} (source : String) (read : List Char → Except Complaint α) : Except SyntaxError α :=
  (read source.toList).mapError (·.toSyntaxError source.toList)

def parseProgram (source : String) : Except SyntaxError (List Statement) :=
  inSource source statements

def parseSchedule (source : String) : Except SyntaxError Schedule :=
  inSource source (whole (schedule maxNesting))

def parseArgument (source : String) : Except SyntaxError Argument :=
  inSource source (whole (argument maxNesting))

end Cadence
