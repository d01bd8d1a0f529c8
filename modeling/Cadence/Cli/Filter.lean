import Cadence.Cli.Rule
import Cadence.Run.Trace

/-!
# Log filters

A filter is a list of rules. Of the rules that are about a log entry, the one that all others yield to decides
whether the entry is shown; what no rule is about is not shown. A shown entry is one line, in whose message the
characters that can steer a terminal are replaced by their codes (`messageChar`).
-/

namespace Cadence

def Level.word : Level → String
  | error => "ERROR"
  | warn => "WARN"
  | info => "INFO"
  | debug => "DEBUG"
  | trace => "TRACE"

namespace Cli

abbrev Filter := List Rule

namespace Filter

/-- Reads a filter: rules with commas between them. Without any rule, errors are shown. -/
def read? (s : String) : Option Filter := do
  let rules ← ((s.splitOn ",").filter (!·.isEmpty)).mapM fun piece => Rule.read? piece.toList
  return if rules.isEmpty then [Rule.general 1] else rules

/-- The filter for the number of times that a longer log was asked for. -/
def ofVerbosity : Nat → Filter
  | 0 => [Rule.general 2]
  | 1 => [Rule.general 3]
  | 2 => [Rule.general 4]
  | _ => [Rule.general 5]

/-- The rule that decides about an entry. -/
def deciding? (filter : Filter) (entry : LogEntry) : Option Rule :=
  (filter.filter (·.isAbout entry)).foldl
    (fun best? rule => if best?.all (·.yieldsTo rule) then some rule else best?) none

/-- Whether a filter shows an entry. -/
def shows (filter : Filter) (entry : LogEntry) : Bool :=
  (filter.deciding? entry).any (·.shows entry)

end Filter

/-! ## Lines -/

/-- The characters of ASCII that can steer a terminal: bell, backspace, form feed, escape and delete. -/
def steeringChars : List Char :=
  ['\x07', '\x08', '\x0c', '\x1b', '\x7f']

/-- Whether a character is one of the control characters behind ASCII, which can all steer a terminal. -/
def isHighControl (c : Char) : Bool :=
  0x80 ≤ c.toNat && c.toNat ≤ 0x9f

/-- The last two hexadecimal digits of a number. -/
def hexPair (n : Nat) : List Char :=
  [Nat.digitChar (n / 16 % 16), Nat.digitChar (n % 16)]

/-- A character of a message, or its code if it can steer a terminal. -/
def messageChar (c : Char) : List Char :=
  if steeringChars.contains c then '\\' :: 'x' :: hexPair c.toNat
  else if isHighControl c then '\\' :: 'u' :: '\x7b' :: hexPair c.toNat ++ ['\x7d']
  else [c]

/-- The line for a log entry. -/
def logLine (entry : LogEntry) : String :=
  let details := entry.details.map fun (name, value) => " " ++ name ++ "=" ++ value
  String.ofList (padLeft 5 entry.level.word.toList) ++ " " ++ entry.topic ++ ": "
    ++ String.ofList (entry.message.toList.flatMap messageChar) ++ String.join details

/-- The line that an output leaves in a log with a filter, if it does. -/
def Filter.line? (filter : Filter) (output : Output) : Option String :=
  (output.logged?.filter filter.shows).map logLine

end Cli

end Cadence
