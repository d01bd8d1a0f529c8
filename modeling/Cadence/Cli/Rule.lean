import Cadence.Binary64.Numeral
import Cadence.Builtin.Console
import Cadence.Text.Alphanumeric
import Cadence.Text.Natural
import Cadence.Pattern.Support

/-!
# Rules about log entries

A rule says up to which level some log entries are shown. It is written

    topic[scope{field=value}]=level

where every part can be left out. A rule is about the entries whose topic begins with its topic and that have its
field. A rule that asks for a scope or for a value is about no entry: entries are logged outside all scopes, and their
values are not looked at. A rule without a level shows all entries that it is about, and a level alone is a rule about
all entries (`Rule.general`).
-/

namespace Cadence

/-- The rank of a level; entries of greater rank matter less. -/
def Level.rank : Level → Nat
  | error => 1
  | warn => 2
  | info => 3
  | debug => 4
  | trace => 5

/-- The rank up to which everything is shown. -/
def Level.maxRank : Nat := 5

namespace Cli

/-- What a rule asks of log entries, and the greatest rank that it shows; zero shows nothing. -/
structure Rule where
  /-- The front of the topic. -/
  topic : List Char
  /-- Whether a scope or a value is asked for. -/
  restricted : Bool
  field? : Option String
  rank : Nat
deriving DecidableEq, Repr

namespace Rule

/-- The rule about all entries that shows them up to a rank. -/
def general (rank : Nat) : Rule :=
  ⟨[], false, none, rank⟩

/-- Whether a rule is about an entry. -/
def isAbout (rule : Rule) (entry : LogEntry) : Bool :=
  !rule.restricted && rule.topic.isPrefixOf entry.topic.toList && rule.field?.all entry.fields.contains

/-- Whether a rule shows an entry that it is about. -/
def shows (rule : Rule) (entry : LogEntry) : Bool :=
  entry.level.rank ≤ rule.rank

/-- Whether the second of two rules about an entry decides, if it is the later one: it has the longer topic, or, with
topics of one length, does not ask for less. Of two fields the one that comes later in the order of texts decides. -/
def yieldsTo (a b : Rule) : Bool :=
  a.topic.length < b.topic.length || a.topic.length == b.topic.length &&
    match a.field?, b.field? with
    | none, _ => true
    | some _, none => false
    | some f, some g => f ≤ g

end Rule

/-! ## Reading -/

/-- Reads a level, as a word or as its rank. -/
def readRank? (s : List Char) : Option Nat :=
  match String.ofList (s.map Char.toLower) with
  | "off" => some 0
  | "error" => some 1
  | "warn" => some 2
  | "info" => some 3
  | "debug" => some 4
  | "trace" => some 5
  | _ => (readNatural? s).filter (· ≤ Level.maxRank)

/-- Whether a value can be asked for: it is a number or a supported pattern. Truth values are patterns anyway. -/
def isFieldValue (s : List Char) : Bool :=
  (Binary64.ofUnpadded? s).isSome || Pattern.isSupported s

/-- Whether a rule can begin with a character. -/
def isRuleStart (c : Char) : Bool :=
  c == '[' || c == '-' || c == ':' || c == '_' || isAlphanumeric c

/-- What is left of a written rule. The marks that end its parts are looked for in `marks`, from which the blanks at
both ends are left out; the parts are cut from `parts`, from which they are not. The two run side by side, so that
blanks at the front of a rule spoil its parts. -/
structure RuleText where
  marks : List Char
  parts : List Char

namespace RuleText

/-- A written rule as a whole. -/
def ofChars (s : List Char) : RuleText :=
  ⟨trimBlanks s, s⟩

/-- What is left behind so many characters. -/
def drop (t : RuleText) (n : Nat) : RuleText :=
  ⟨t.marks.drop n, t.parts.drop n⟩

/-- The part up to the first of some marks, and what is left from that mark on. -/
def upTo (t : RuleText) (marks : List Char) : List Char × RuleText :=
  let n := (t.marks.takeWhile (!marks.contains ·)).length
  (t.parts.take n, t.drop n)

end RuleText

namespace Rule

/-- Reads the level of a rule, which shows everything if there is nothing to read. -/
def readLevel? (s : List Char) : Option Nat :=
  if s.isEmpty then some Level.maxRank else readRank? s

/-- Reads what stands behind the brackets of a rule. -/
def readEnd? (topic : List Char) (restricted : Bool) (field? : Option String) (t : RuleText) : Option Rule :=
  match t.marks with
  | [] => some ⟨topic, restricted, field?, Level.maxRank⟩
  | '=' :: _ => (readLevel? (t.drop 1).parts).map fun rank => ⟨topic, restricted, field?, rank⟩
  | _ => none

/-- Reads a rule from the inside of its brackets on. -/
def readBrackets? (topic : List Char) (t : RuleText) : Option Rule :=
  let (scope, t) := t.upTo [']', '\x7b']
  match t.marks with
  | ']' :: _ => readEnd? topic true none (t.drop 1)
  | '\x7b' :: _ =>
    let (field, t) := (t.drop 1).upTo ['\x7d']
    let name := field.takeWhile (· != '=')
    let value := field.dropWhile (· != '=')
    if field.isEmpty || !isFieldValue ((value.drop 1).takeWhile (· != '=')) then none
    else match t.marks with
      | '\x7d' :: ']' :: _ =>
        readEnd? topic (!scope.isEmpty || !value.isEmpty) (some (String.ofList name)) (t.drop 2)
      | _ => none
  | _ => none

def read? (s : List Char) : Option Rule :=
  let t := RuleText.ofChars s
  if !t.marks.head?.any isRuleStart then none
  else
    let (topic, rest) := t.upTo ['=', '[']
    match rest.marks with
    | '=' :: _ => (readLevel? (rest.drop 1).parts).map fun rank => ⟨topic, false, none, rank⟩
    | '[' :: _ => readBrackets? topic (rest.drop 1)
    | _ => some ((readRank? s).elim ⟨s, false, none, Level.maxRank⟩ general)

end Rule

end Cli

end Cadence
