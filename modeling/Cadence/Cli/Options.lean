import Cadence.Run.Clock
import Cadence.Text.Natural

/-!
# Command lines

A command line names one of three commands and its options. An option that takes a value has it in the next word,
behind an equals sign, or, after a single letter, in the same word. The words are read from left to right; the first
that is not understood, or that asks for the version or for help, decides, and the words behind it are not looked at.
-/

namespace Cadence.Cli

/-- What is to be done with a program. -/
inductive Command
  /-- Read and bind the program, and show its statements. -/
  | check (file : String) (json : Bool)
  /-- Show the first intervals of every statement. -/
  | trace (file : String) (count : Nat)
  /-- Run all statements. -/
  | run (file : String) (settings : Settings)

/-- Whether a name stands for the standard input: it is a hyphen, perhaps followed by slashes and by points that
stand alone, which add nothing to a name. -/
def isStandardInput (file : String) : Bool :=
  match file.splitOn "/" with
  | "-" :: rest => rest.all fun piece => piece == "" || piece == "."
  | _ => false

/-- A command, and the number of times that a longer log was asked for. -/
structure Request where
  verbosity : Nat
  command : Command

/-- What a command line comes to that asks for no command. -/
inductive Notice
  | version
  /-- It asks for a reminder of the options. -/
  | help
  /-- It is not understood. -/
  | misuse (message : String)
deriving DecidableEq, Repr

/-- The options found on a command line so far. -/
structure Options where
  /-- How often a longer log was asked for in front of the command. -/
  verbosityBefore : Nat
  /-- How often a longer log was asked for behind the command, or in front if none was named so far. -/
  verbosity : Nat
  command? : Option String
  file? : Option String
  json : Bool
  count? : Option Nat
  scale? : Option Binary64
  limit? : Option Nat

def Options.initial : Options :=
  ⟨0, 0, none, none, false, none, none, none⟩

/-- The notice about a word that does not belong where it stands. -/
def Notice.unexpected (word : String) : Notice :=
  .misuse ("unexpected argument '" ++ word ++ "' found")

/-- The notice about an option that lacks its value. -/
def Notice.lacksValue (name : String) : Notice :=
  .misuse ("a value is required for '--" ++ name ++ "' but none was supplied")

/-- The notice about an option that is given twice. -/
def Notice.repeated (name : String) : Notice :=
  .misuse ("the argument '--" ++ name ++ "' cannot be used multiple times")

/-- Something that was read from a value, if it can be read. -/
def valueOf {α : Type} (value : String) (result : Option α) : Except Notice α :=
  match result with
  | some a => .ok a
  | none => .error (.misuse ("invalid value '" ++ value ++ "'"))

/-- Reads a natural number below `2 ^ 64`. -/
def readCount (s : String) : Except Notice Nat :=
  valueOf s ((readNatural? s.toList).filter (· < UInt64.size))

/-- Reads a number that has no blanks around it. -/
def readScale (s : String) : Except Notice Binary64 :=
  valueOf s (Binary64.ofUnpadded? s.toList)

/-- Takes note of an option that can be given once. -/
def once {α : Type} (name : String) (old : Option α) (new : α) : Except Notice (Option α) :=
  match old with
  | some _ => .error (.repeated name)
  | none => .ok (some new)

/-- Takes note of an option with a value. -/
def Options.withValue (o : Options) (name value : String) : Except Notice Options :=
  match name, o.command? with
  | "file", some _ =>
    if value.isEmpty then .error (.lacksValue name)
    else do return { o with file? := ← once name o.file? value }
  | "count", some "trace" => do return { o with count? := ← once name o.count? (← readCount value) }
  | "time-scale", some "run" => do return { o with scale? := ← once name o.scale? (← readScale value) }
  | "limit", some "run" => do return { o with limit? := ← once name o.limit? (← readCount value) }
  | _, _ => .error (.unexpected ("--" ++ name))

/-- Takes note of an option without a value. -/
def Options.withFlag (o : Options) (name : String) : Except Notice Options :=
  match name, o.command? with
  | "verbose", _ => .ok { o with verbosity := o.verbosity + 1 }
  | "json", some "check" => if o.json then .error (.repeated name) else .ok { o with json := true }
  | "version", none => .error .version
  | "help", _ => .error .help
  | _, _ => .error (.unexpected ("--" ++ name))

/-- Whether an option takes a value. -/
def takesValue (name : String) : Bool :=
  ["file", "count", "time-scale", "limit"].contains name

/-- The name of an option that is given by a letter. -/
def nameOfLetter : Char → String
  | 'f' => "file"
  | 'n' => "count"
  | 'v' => "verbose"
  | 'V' => "version"
  | 'h' => "help"
  | c => c.toString

/-- Whether a word can be the value of the option before it. -/
def canBeValue (word : String) : Bool :=
  word == "-" || word.toList.head? != some '-'

def commandNames : List String :=
  ["check", "trace", "run"]

/-- What comes of the word `help` in place of a command, by the words behind it: at most one command may follow. -/
def helpNotice : List String → Notice
  | [] => .help
  | [word] => if word == "help" || commandNames.contains word then .help else .unexpected word
  | _ :: word :: _ => .unexpected word

/-- Takes note of the options in a word of letters. The result tells, if the last of them lacks a value, which
option that is. -/
def Options.withLetters (o : Options) : List Char → Except Notice (Options × Option String)
  | [] => .ok (o, none)
  | c :: rest =>
    let name := nameOfLetter c
    if takesValue name then
      match rest with
      | [] => .ok (o, some name)
      | '=' :: value => do return (← o.withValue name (String.ofList value), none)
      | value => do return (← o.withValue name (String.ofList value), none)
    else do
      let o ← o.withFlag name
      o.withLetters rest

/-- Takes note of a word that is no option, with the words behind it. -/
def Options.withBare (o : Options) (word : String) (rest : List String) : Except Notice Options :=
  if o.command?.isSome then .error (.unexpected word)
  else if word == "help" then .error (helpNotice rest)
  else if commandNames.contains word then
    .ok { o with command? := some word, verbosityBefore := o.verbosity, verbosity := 0 }
  else .error (.unexpected word)

/-- Takes note of the words of a command line. `pending` is the option whose value is the next word. Two hyphens end
the options; no word can stand behind them. -/
def Options.withWords (o : Options) (pending : Option String) : List String → Except Notice Options
  | [] =>
    match pending with
    | some name => .error (.lacksValue name)
    | none => .ok o
  | word :: rest =>
    match pending with
    | some name =>
      if canBeValue word then do (← o.withValue name word).withWords none rest
      else .error (.lacksValue name)
    | none =>
      match word.toList with
      | ['-', '-'] =>
        match rest with
        | [] => .ok o
        | word :: _ => .error (.unexpected word)
      | '-' :: '-' :: long =>
        let name := String.ofList (long.takeWhile (· != '='))
        match long.dropWhile (· != '=') with
        | '=' :: value =>
          if takesValue name then do (← o.withValue name (String.ofList value)).withWords none rest
          else .error (.misuse ("unexpected value for '--" ++ name ++ "' found"))
        | _ =>
          if takesValue name then o.withWords (some name) rest
          else do (← o.withFlag name).withWords none rest
      | '-' :: c :: letters => do
        let (o, pending) ← o.withLetters (c :: letters)
        o.withWords pending rest
      | _ => do (← o.withBare word rest).withWords none rest

/-- What some options ask for. A longer log counts in front of the command only if none is asked for behind it. -/
def Options.request (o : Options) : Except Notice Request :=
  let verbosity := if o.verbosity = 0 then o.verbosityBefore else o.verbosity
  match o.command?, o.file? with
  | some "check", some file => .ok ⟨verbosity, .check file o.json⟩
  | some "trace", some file => .ok ⟨verbosity, .trace file (o.count?.getD 10)⟩
  | some "run", some file => .ok ⟨verbosity, .run file ⟨o.scale?.getD Settings.default.scale, o.limit?⟩⟩
  | some _, _ => .error (.misuse "the following required arguments were not provided: --file <FILE>")
  | none, _ => .error (.misuse "a command is required: check, trace or run")

/-- Reads a command line. -/
def Request.read (words : List String) : Except Notice Request := do
  (← Options.initial.withWords none words).request

end Cadence.Cli
