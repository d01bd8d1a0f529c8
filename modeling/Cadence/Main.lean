import Cadence.Cli.Commands

/-!
# The program

Carries out a command line. What is put out is written as soon as it is known, and a run waits in real time for
every delay.
-/

namespace Cadence.Cli

/-- Reads a file, or the standard input. -/
def fetch (file : String) : IO Text := do
  try
    let bytes ← if isStandardInput file then (← IO.getStdin).readBinToEnd else IO.FS.readBinFile file
    return match String.fromUTF8? bytes with
      | some text => .ok text
      | none => .error .notText
  catch
    | .noFileOrDirectory .. => return .error .missing
    | .inappropriateType .. => return .error .directory
    | .permissionDenied .. => return .error .denied
    | e => return .error (.other (toString e))

/-- Writes outputs: printed lines to the standard output, and log entries that the filter shows to the standard
error. -/
def deliver (filter : Filter) (outputs : Array Output) : IO Unit := do
  for output in outputs do
    for line in output.printed? do
      IO.println line
      (← IO.getStdout).flush
    for line in filter.line? output do
      IO.eprintln line

/-- Sleeps until so many milliseconds have passed since the start of the program's clock. -/
partial def sleepUntil (time : Nat) : IO Unit := do
  let now ← IO.monoMsNow
  if now < time then
    IO.sleep (UInt32.ofNat (min (time - now) 1000000))
    sleepUntil time

/-- Takes a run that began at a time forward until it is over, as time goes by. -/
partial def runLive (settings : Settings) (filter : Filter) (began : Nat) (e : Ensemble Console)
    (console : Console) : IO (Ensemble Console) := do
  if e.isOver then return e
  if e.queue.isEmpty then
    for (due, _, _) in nextDue e.waiting do
      sleepUntil (began + due)
  let (e, w) := (stepRun .steady settings e).run (.fresh console)
  deliver filter w.state.outputs
  runLive settings filter began e { w.state with outputs := #[] }

/-- Takes a session forward from a console, and delivers what it puts out. -/
def live {α : Type} (filter : Filter) (console : Console) (session : Session α) :
    IO (Except String α × Console) := do
  let (result, w) := session.run.run (.fresh console)
  deliver filter w.state.outputs
  return (result, { w.state with outputs := #[] })

/-- Carries out a command on the text of its file, as time goes by. -/
def performLive (filter : Filter) (console : Console) (command : Command) (text : Text) :
    IO (Except String Unit) := do
  match command with
  | .run file settings =>
    match ← live filter console (beginRun file text settings) with
    | (.error message, _) => return .error message
    | (.ok e, console) =>
      let final ← runLive settings filter (← IO.monoMsNow) e console
      return (← live filter console (endRun final (runNames e))).1
  | command => return (← live filter console (perform 0 command text)).1

/-- Dice that are different each time. -/
def rollDice : IO (Nat → Nat) := do
  let bytes ← IO.getRandomBytes 8
  return seededDice (bytes.toList.foldl (fun n b => 256 * n + b.toNat) 0)

/-- Carries out a command line. -/
def answer (words : List String) : IO UInt32 := do
  match Request.read words with
  | .ok request =>
    let filter := chooseFilter request.verbosity (← IO.getEnv "FUNCSCHED_LOG")
    let text ← fetch request.command.file
    match ← performLive filter (.fresh (← rollDice)) request.command text with
    | .ok () => return 0
    | .error message =>
      IO.eprintln ("error: " ++ message)
      return 1
  | .error notice =>
    let reply := Reply.ofNotice notice
    IO.print reply.stdout
    IO.eprint reply.stderr
    return UInt32.ofNat reply.code

end Cadence.Cli

/-- Carries out the command line that the program is called with. -/
def main (words : List String) : IO UInt32 :=
  Cadence.Cli.answer words
