import Cadence.Builtin.Registries
import Cadence.Cli.Filter
import Cadence.Cli.Options
import Cadence.Run.Ensemble
import Cadence.Run.Trace

/-!
# Commands

The three commands act on a console and may fail with a message. `check` and `trace` are done at once; a run is
begun (`beginRun`), taken forward step by step (`stepRun`) and reported (`endRun`), so that it can be run in real time
as well as at once (`perform`).
-/

namespace Cadence.Cli

/-- A computation of the command line: it acts on a console and may fail with a message. -/
abbrev Session := ExceptT String (StateM (World Console))

/-- Why a file cannot be read. -/
inductive ReadFault
  | missing
  | directory
  | denied
  | notText
  | other (words : String)

/-- The words for why a file cannot be read. -/
def ReadFault.words : ReadFault → String
  | missing => "No such file or directory (os error 2)"
  | denied => "Permission denied (os error 13)"
  | directory => "Is a directory (os error 21)"
  | notText => "stream did not contain valid UTF-8"
  | other words => words

/-- The text of a file, or why there is none. -/
abbrev Text := Except ReadFault String

def printLine (line : String) : Session Unit :=
  modify fun w => { w with state := w.state.put (.printed line) }

def printLines (lines : List String) : Session Unit :=
  lines.forM printLine

/-- The name of a file in messages about reading it. -/
def sourceName (file : String) : String :=
  if isStandardInput file then "stdin" else file

def readText (file : String) (text : Text) : Session String :=
  match text with
  | .ok source => pure source
  | .error fault => throw ("cannot read " ++ sourceName file ++ ": " ++ fault.words)

/-- A computation of the host, with the name of the file in front of the words of an error. -/
def inFile {α : Type} (file : String) (act : Host Console α) : Session α :=
  act.run >>= fun
    | .ok a => pure a
    | .error e => throw (file ++ ": " ++ e.message)

/-- Reads and binds the program in a file. -/
def loadFile (file : String) (text : Text) :
    Session (List Statement × List (Bound.Statement Console Bound.Passes)) := do
  let source ← readText file text
  let statements ← inFile file (Host.ofResult (readProgram source))
  let bound ← inFile file (Builtin.scheduler.bind statements)
  return (statements, bound)

/-- Shows the statements of a program that can be bound. -/
def check (file : String) (text : Text) (json : Bool) : Session Unit := do
  let (statements, _) ← loadFile file text
  if json then printLine (Statements.toJson statements).prettyText
  else
    printLines (statements.map ("  " ++ ·.text))
    printLine ("OK: " ++ file ++ " (" ++ toString statements.length ++ " statements)")

/-- Shows the first intervals of every statement. -/
def trace (file : String) (text : Text) (count : Nat) : Session Unit := do
  let (_, bound) ← loadFile file text
  match ← traceLines count bound with
  | .ok lines => printLines lines
  | .error (name, e) => throw (name ++ ": " ++ e.message)

/-- Makes ready to run all statements. -/
def beginRun (file : String) (text : Text) (settings : Settings) : Session (Ensemble Console) := do
  if settings.isValid then
    let (_, bound) ← loadFile file text
    return Ensemble.start bound settings
  else throw settings.complaint

/-- The topic of log entries about runs. -/
def runTopic : String := "funcsched::runtime::driver"

/-- The log entry about a statement that was stopped by an error. -/
def stopEntry (name : String) (fired : Nat) (e : Error) : LogEntry :=
  ⟨.warn, runTopic, "schedule stopped",
    [("action", "\"" ++ name ++ "\""), ("fired", toString fired), ("error", e.message)]⟩

/-- Takes a run one step forward, and logs a warning if that stops a statement. -/
def stepRun (clock : Clock) (settings : Settings) (e : Ensemble Console) :
    StateM (World Console) (Ensemble Console) := do
  let e' ← e.step clock settings
  (e'.completions.drop e.completions.length).forM fun c =>
    match c.error? with
    | none => pure ()
    | some error =>
      modify fun w => { w with state := w.state.put (.logged (stopEntry c.name c.fired error)) }
  return e'

/-- Takes a run forward until it is over, by at most so many steps. -/
def finishRun (clock : Clock) (settings : Settings) :
    Nat → Ensemble Console → StateM (World Console) (Ensemble Console)
  | 0, e => pure e
  | steps + 1, e =>
    if e.isOver then pure e else do finishRun clock settings steps (← stepRun clock settings e)

/-- Shows how often each statement was fired, in program order. -/
def endRun (e : Ensemble Console) (names : List String) : Session Unit :=
  match e.counts with
  | .ok counts =>
    printLines ((names.zip counts).map fun (name, fired) => "  " ++ name ++ ": " ++ toString fired ++ " fired")
  | .error error => throw error.message

/-- The names of the actions of a run that has not begun, in program order. -/
def runNames (e : Ensemble Console) : List String :=
  e.queue.map (·.name)

/-- The file that a command reads. -/
def Command.file : Command → String
  | check file _ => file
  | trace file _ => file
  | run file _ => file

/-- Carries out a command on the text of its file; time passes as fast as it can, and a run is given at most so many
steps. -/
def perform (steps : Nat) (command : Command) (text : Text) : Session Unit :=
  match command with
  | .check file json => check file text json
  | .trace file count => trace file text count
  | .run file settings => do
    let e ← beginRun file text settings
    let final ← finishRun .steady settings steps e
    endRun final (runNames e)

/-! ## Replies -/

/-- What the program leaves behind. -/
structure Reply where
  code : Nat
  stdout : String
  stderr : String
deriving DecidableEq, Repr

/-- Lines as they are written. -/
def unlines (lines : List String) : String :=
  lines.foldl (· ++ · ++ "\n") ""

def versionLine : String := "funcsched 0.1.0"

/-- A reminder of the commands and their options. -/
def helpLines : List String :=
  [ "Run actions on nested, repeatable, function-driven interval schedules", "",
    "Usage: funcsched [OPTIONS] <COMMAND>", "", "Commands:",
    "  check  Parse and resolve a schedule program without running it",
    "  trace  Print the first intervals of every statement without firing actions",
    "  run    Run every statement concurrently in real time" ]

/-- The filter that applies: the one that is asked for, if it can be read, or else the one for the verbosity. -/
def chooseFilter (verbosity : Nat) (asked : Option String) : Filter :=
  (asked.bind Filter.read?).getD (.ofVerbosity verbosity)

/-- What is left behind by a session that put out `outputs`. -/
def Reply.ofSession (filter : Filter) (outputs : List Output) (result : Except String Unit) : Reply :=
  let logged := outputs.filterMap filter.line?
  let printed := outputs.filterMap Output.printed?
  match result with
  | .ok () => ⟨0, unlines printed, unlines logged⟩
  | .error message => ⟨1, unlines printed, unlines (logged ++ ["error: " ++ message])⟩

/-- The reply to a command line that asks for no command. -/
def Reply.ofNotice : Notice → Reply
  | .misuse message => ⟨2, "", unlines ["error: " ++ message]⟩
  | .version => ⟨0, unlines [versionLine], ""⟩
  | .help => ⟨0, unlines helpLines, ""⟩

/-- The whole program: the words of the command line, the filter that is asked for, the files, and the dice. -/
def respond (steps : Nat) (dice : Nat → Nat) (words : List String) (filter : Option String)
    (files : String → Text) : Reply :=
  match Request.read words with
  | .ok request =>
    let (result, w) := (perform steps request.command (files request.command.file)).run (.fresh (.fresh dice))
    Reply.ofSession (chooseFilter request.verbosity filter) w.state.outputs.toList result
  | .error notice => Reply.ofNotice notice

end Cadence.Cli
