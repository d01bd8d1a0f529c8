import Mathlib.Data.String.Basic
import Cadence.Program.Parser

/-!
# Scanning with a head

The productions are given what is left of a text. Here the same grammar is read by a head that moves over the source:
it stands so many bytes into the text, inside so many brackets, and is set forward by the size of a character, set back
to where a word began, and set anywhere else that a scan computes. Nothing keeps it in place but the way in which it is
used. A scan goes *astray*, which is `none`, whenever

* the head is set to an offset beyond the end of the text, or inside a character,
* text is taken from such an offset, or a complaint is about one,
* the depth would pass `maxNesting` on the way in, or fall below zero on the way out,
* a repetition goes on that has taken nothing from the text (`Scan.loop`), or
* productions call each other once more than the levels allow: every definition below that calls itself does so with one
  level less, and only inside of `Scan.nested`.

So a scan that gives a result has kept the head on the boundaries of characters and its depth within the limit. That no
scan of the grammar goes astray, and that the scans give what the productions do, is shown further on (`parse_settles`).
-/

namespace Cadence

open String (utf8Len)

/-- What stands behind so many bytes of a text; nothing if they end inside a character or beyond the end. -/
def behind? : List Char → Nat → Option (List Char)
  | s, 0 => some s
  | [], _ + 1 => none
  | c :: s, size + 1 => if c.utf8Size ≤ size + 1 then behind? s (size + 1 - c.utf8Size) else none

/-- The head of a reader. -/
structure Head where
  /-- The bytes in front of it. -/
  offset : Nat
  /-- The brackets that it is in. -/
  depth : Nat

/-- The head at the beginning of a text. -/
def Head.start : Head := ⟨0, 0⟩

/-- Reads something of a source with a head, which stays where it is when the scan complains; `none` is a scan that has
gone astray. -/
abbrev Scan := ReaderT (List Char) (ExceptT SyntaxError (StateT Head Option))

namespace Scan

variable {α β σ : Type}

/-! ## The head -/

/-- There is no way to go on. -/
def astray : Scan α := fun _ _ => none

def offset : Scan Nat := fun _ head => some (.ok head.offset, head)

/-- The text behind an offset. -/
def textAt (offset : Nat) : Scan (List Char) := fun source head =>
  (behind? source offset).map fun s => (.ok s, head)

def moveTo (offset : Nat) : Scan Unit := fun source head =>
  if (behind? source offset).isSome then some (.ok (), { head with offset }) else none

example : (moveTo 1 ['ä', 'b'] .start).isNone = true := by decide
example : (moveTo 4 ['ä', 'b'] .start).isNone = true := by decide

/-- The character at a distance from the head. -/
def peekNth (n : Nat) : Scan (Option Char) := do
  let text ← textAt (← offset)
  return text[n]?

def peek : Scan (Option Char) := do
  let text ← textAt (← offset)
  return text.head?

/-- Takes a character. -/
def bump : Scan (Option Char) := do
  match ← peek with
  | none => return none
  | some c => do
    moveTo ((← offset) + c.utf8Size)
    return some c

/-- The text between two offsets. -/
def slice (start stop : Nat) : Scan (List Char) := do
  let text ← textAt start
  let rest ← textAt stop
  if start ≤ stop then return textBefore text rest else astray

def atEnd : Scan Bool := fun source head => some (.ok (decide (utf8Len source ≤ head.offset)), head)

/-- Complains about what stands at an offset; beyond the end, about the end. -/
def refuse (offset : Nat) (words : String) : Scan α := fun source head =>
  if (behind? source (min offset (utf8Len source))).isSome then
    some (.error ⟨words, Place.ofOffset source offset⟩, head)
  else none

/-- Complains about what stands at the head. -/
def unexpected (words : String) : Scan α := do
  match ← peek with
  | some c => refuse (← offset) (words ++ (", found '" ++ c.toString ++ "'"))
  | none => refuse (← offset) (words ++ ", found end of input")

/-- Goes one bracket further in, and out again whatever becomes of it. -/
def nested (inner : Scan α) : Scan α := fun source head =>
  if maxNesting ≤ head.depth then refuse head.offset (Fault.tooDeep.words none) source head
  else
    match inner source { head with depth := head.depth + 1 } with
    | none => none
    | some (result, head') =>
      if 0 < head'.depth then some (result, { head' with depth := head'.depth - 1 }) else none

/-- Repeats a step from a state to a state until it gives a result. A step behind which the head stands no further than
before leads astray. -/
def loop (step : σ → Scan (σ ⊕ α)) (state : σ) (source : List Char) (head : Head) :
    Option (Except SyntaxError α × Head) :=
  match step state source head with
  | none => none
  | some (.error e, head') => some (.error e, head')
  | some (.ok (.inr a), head') => some (.ok a, head')
  | some (.ok (.inl state'), head') =>
    if head.offset < head'.offset ∧ head'.offset ≤ utf8Len source then loop step state' source head' else none
termination_by utf8Len source - head.offset

/-! ## Tokens -/

def skipWhile (p : Char → Bool) : Scan Unit :=
  loop (fun _ => do
    if (← peek).any p then do
      let _ ← bump
      return .inl ()
    else return .inr ()) ()

/-- Takes characters of a kind, as many as there are. -/
def takeWhile (p : Char → Bool) : Scan (List Char) := do
  let start ← offset
  skipWhile p
  slice start (← offset)

def skipBlanks : Scan Unit :=
  skipWhile isBlank

/-- Takes a character if it is the given one; tells whether it is. -/
def eat (c : Char) : Scan Bool := do
  if (← peek) = some c then do
    let _ ← bump
    return true
  else return false

def expect (c : Char) (what : Expectation) : Scan Unit := do
  if ← eat c then return () else unexpected what.words

def identifier : Scan (List Char) := do
  if (← peek).any Char.isAlpha then takeWhile isNamePart else unexpected "expected identifier"

/-- Takes a sign if there may be one; tells whether it is a minus. -/
def sign (signed : Bool) : Scan Bool := do
  let found ← peek
  if signed ∧ (found = some '+' ∨ found = some '-') then do
    let _ ← bump
    return decide (found = some '-')
  else return false

/-- Takes an exponent, if a digit is behind the letter and its sign. -/
def exponent : Scan (Option Int) := do
  let letter ← peek
  if letter = some 'e' ∨ letter = some 'E' then do
    let next ← peekNth 1
    let signs := if next = some '+' ∨ next = some '-' then 1 else 0
    if (← peekNth (1 + signs)).any Char.isDigit then do
      let _ ← bump
      let negative ← sign true
      let digits ← takeWhile Char.isDigit
      let power : Int := Nat.ofDigitChars 10 digits 0
      return some (if negative then -power else power)
    else return none
  else return none

/-- Takes a point and the digits behind it, if there is a point or no digit is needed. -/
def fraction (start : Nat) (whole : List Char) : Scan (Option (List Char)) := do
  if (← peek) = some '.' then do
    let _ ← bump
    let digits ← takeWhile Char.isDigit
    if whole.isEmpty ∧ digits.isEmpty then refuse start (Fault.noDigits.words none)
    else return some digits
  else if whole.isEmpty then unexpected Expectation.number.words
  else return none

/-- The number of a numeral that stands at an offset as the given text. -/
def worth (start : Nat) (text : List Char) (negative : Bool) (n : Numeral) : Scan Number :=
  if n.isInteger then
    match fitInt64 (if negative then -n.toNat else n.toNat) with
    | some i => return .int i
    | none => refuse start ((Fault.integerOutOfRange text).words none)
  else if (n.toBinary64 negative).isFinite then return .float (n.toBinary64 negative)
  else refuse start ((Fault.numberOutOfRange text).words none)

def numberLiteral (signed : Bool) : Scan Number := do
  let start ← offset
  let negative ← sign signed
  let whole ← takeWhile Char.isDigit
  let fraction ← fraction start whole
  let exponent ← exponent
  let text ← slice start (← offset)
  worth start text negative ⟨whole, fraction, exponent⟩

/-- Takes what is left of a string, with the closing quote; a backslash takes the next character with it. -/
def quotedFrom (start : Nat) (before : List Char) : Scan (List Char) :=
  loop (fun before => do
    match ← bump with
    | none => refuse start (Fault.unterminatedString.words none)
    | some c =>
      if c = '"' then return .inr before
      else if c = '\\' then
        match ← bump with
        | none => refuse start (Fault.unterminatedString.words none)
        | some d => return .inl (before ++ Quoted.unescape d)
      else return .inl (before ++ [c])) before

def quoted : Scan (List Char) := do
  let start ← offset
  let _ ← bump
  quotedFrom start []

/-! ## Chains and rows -/

/-- Takes the right operand of an operator that stands at an offset, where a fault of the operation is. -/
def operation (start : Nat) (op : Operator) (value : Number) (operand : Scan Number) : Scan Number := do
  let right ← operand
  match value.apply op right with
  | .error fault => refuse start fault.words
  | .ok result => return result

/-- Takes an operator and its operand, if there is an operator. -/
def chainStep (operator? : Char → Option Operator) (operand : Scan Number) (value : Number) :
    Scan (Number ⊕ Number) := do
  skipBlanks
  let start ← offset
  match (← peek).bind operator? with
  | none => return .inr value
  | some op => do
    let _ ← bump
    skipBlanks
    let result ← operation start op value operand
    return .inl result

def chainFrom (operator? : Char → Option Operator) (operand : Scan Number) (value : Number) : Scan Number :=
  loop (chainStep operator? operand) value

def chain (operator? : Char → Option Operator) (operand : Scan Number) : Scan Number := do
  let first ← operand
  chainFrom operator? operand first

/-- Takes an element, and the comma or the closing bracket behind it. -/
def elementStep (element : Scan α) (close : Char) (what : Expectation) (before : List α) :
    Scan (List α ⊕ List α) := do
  skipBlanks
  let a ← element
  skipBlanks
  if ← eat ',' then return .inl (before ++ [a])
  else do
    expect close what
    return .inr (before ++ [a])

/-- Takes one or more elements with commas between them, and the closing bracket. -/
def elements (element : Scan α) (close : Char) (what : Expectation) (before : List α) : Scan (List α) :=
  loop (elementStep element close what) before

/-- Takes what follows an opening bracket, with the closing one. -/
def row (element : Scan α) (close : Char) (what : Expectation) : Scan (List α) := do
  skipBlanks
  if ← eat close then return []
  else elements element close what []

/-! ## Expressions -/

def expressionOf (factor : Scan Number) : Scan Number :=
  chain additive? (chain multiplicative? factor)

def factorOf (inner : Scan Number) : Scan Number := do
  if (← peek) = some '(' then
    nested do
      let _ ← bump
      skipBlanks
      let n ← inner
      skipBlanks
      expect ')' .parenthesisEnd
      return n
  else numberLiteral true

def factor : Nat → Scan Number
  | 0 => factorOf astray
  | levels + 1 => factorOf (expressionOf (factor levels))

def expression (levels : Nat) : Scan Number :=
  expressionOf (factor levels)

/-! ## Calls and arguments -/

def callOf (inner : Scan Argument) : Scan Call := do
  let called ← identifier
  skipBlanks
  let arguments ← nested do
    expect '(' (.argumentList called)
    row inner ')' .argumentListEnd
  return ⟨String.ofList called, arguments⟩

/-- Takes a word to see what follows it, and goes back to its beginning for a call, or else to its end. -/
def word (inner : Scan Argument) : Scan Argument := do
  let start ← offset
  let found ← identifier
  let stop ← offset
  skipBlanks
  if (← peek) = some '(' then do
    moveTo start
    let call ← callOf inner
    return call.toArgument
  else do
    moveTo stop
    if found = ['t', 'r', 'u', 'e'] then return .literal (.boolean true)
    else if found = ['f', 'a', 'l', 's', 'e'] then return .literal (.boolean false)
    else refuse start ((Fault.strayName found).words none)

def entry (argument : Scan Argument) : Scan (Argument × Argument) := do
  let key ← argument
  skipBlanks
  expect ':' .mapColon
  skipBlanks
  let value ← argument
  return (key, value)

def argumentOf (inner : Scan Argument) (number : Scan Number) : Scan Argument := do
  match ← peek with
  | none => unexpected Expectation.argument.words
  | some c =>
    if c = '[' then
      nested do
        let _ ← bump
        let items ← row inner ']' .listEnd
        return .list items
    else if c = '\x7b' then
      nested do
        let _ ← bump
        let entries ← row (entry inner) '\x7d' .mapEnd
        return .map (Entries.ofList entries)
    else if c = '"' then do
      let text ← quoted
      return .literal (.string (String.ofList text))
    else if c.isAlpha then word inner
    else if startsNumber c then do
      let n ← number
      return .literal (.number n)
    else unexpected Expectation.argument.words

def argument : Nat → Scan Argument
  | 0 => argumentOf astray (expression 0)
  | levels + 1 => argumentOf (argument levels) (expression (levels + 1))

/-- What stands inside the brackets of an argument. -/
def inside : Nat → Scan Argument
  | 0 => astray
  | levels + 1 => argument levels

def call (levels : Nat) : Scan Call :=
  callOf (inside levels)

/-! ## Schedules and statements -/

def itemOf (schedule : Scan Schedule) (call : Scan Call) : Scan Item := do
  match ← peek with
  | none => unexpected Expectation.item.words
  | some c =>
    if c = '[' then do
      let nested ← schedule
      return nested.toItem
    else if c = '+' then do
      let _ ← bump
      let seconds ← numberLiteral false
      return .interval seconds
    else if c.isDigit ∨ c = '.' then do
      let seconds ← numberLiteral false
      return .interval seconds
    else if c.isAlpha then do
      let found ← call
      return .call found
    else unexpected Expectation.item.words

def passesOf (call : Scan Call) : Scan Repeat := do
  match ← peek with
  | none => unexpected Expectation.passes.words
  | some c =>
    if c = '*' then do
      let _ ← bump
      return .forever
    else if c.isDigit then do
      let start ← offset
      let digits ← takeWhile Char.isDigit
      let count := Nat.ofDigitChars 10 digits 0
      if count < UInt64.size then return .times (UInt64.ofNat count)
      else refuse start ((Fault.passesOutOfRange digits).words none)
    else if c.isAlpha then do
      let found ← call
      return .call found
    else unexpected Expectation.passes.words

/-- Takes a schedule of which the depth is counted already. -/
def scheduleBody (schedule : Scan Schedule) (call : Scan Call) : Scan Schedule := do
  expect '[' .schedule
  let items ← row (itemOf schedule call) ']' .scheduleEnd
  skipBlanks
  if ← eat ':' then do
    skipBlanks
    let passes ← passesOf call
    return Schedule.ofItems items passes
  else return Schedule.ofItems items (.times 1)

def schedule : Nat → Scan Schedule
  | 0 => nested astray
  | levels + 1 => nested (scheduleBody (schedule levels) (call levels))

def statement : Scan Statement := do
  if (← peek).any Char.isAlpha then do
    let action ← call maxNesting
    skipBlanks
    expect '@' .atSign
    skipBlanks
    let timing ← schedule maxNesting
    return ⟨action, timing⟩
  else unexpected Expectation.action.words

def statements (before : List Statement) : Scan (List Statement) :=
  loop (fun before => do
    let s ← statement
    skipBlanks
    if ← atEnd then return .inr (before ++ [s]) else return .inl (before ++ [s])) before

def program : Scan (List Statement) := do
  skipBlanks
  statements []

/-- Takes a text as a whole. -/
def whole (production : Scan α) : Scan α := do
  skipBlanks
  let a ← production
  skipBlanks
  if ← atEnd then return a else unexpected Expectation.inputEnd.words

end Scan

end Cadence
