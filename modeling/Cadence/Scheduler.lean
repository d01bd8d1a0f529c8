import Cadence.Bound.Binding
import Cadence.Program.Parser

/-!
# Schedulers

A scheduler holds the actions and the functions that programs may call, and loads program texts: it reads and binds
them.
-/

namespace Cadence

/-- The callables that programs may call. -/
structure Scheduler (σ : Type) where
  actions : Registry σ
  functions : Registry σ

/-- Reads a program; a complaint about its text is an error. -/
def readProgram (source : String) : Except Error (List Statement) :=
  (parseProgram source).mapError .malformed

namespace Scheduler

variable {σ : Type}

def empty : Scheduler σ :=
  ⟨.empty .action, .empty .function⟩

/-- Adds a callable of a kind, if its name is free among those of the kind. -/
def register (s : Scheduler σ) (kind : Kind) (c : Callable σ) (alias? : Option String) :
    Except Error (Scheduler σ) :=
  match kind with
  | .action => (s.actions.register c alias?).map ({ s with actions := · })
  | .function => (s.functions.register c alias?).map ({ s with functions := · })

/-- Binds a program. -/
def bind (s : Scheduler σ) (statements : List Statement) : Host σ (List (Bound.Statement σ Bound.Passes)) :=
  Statements.bind s.actions s.functions statements

/-- Reads and binds a program. -/
def load (s : Scheduler σ) (source : String) : Host σ (List (Bound.Statement σ Bound.Passes)) := do
  let statements ← Host.ofResult (readProgram source)
  s.bind statements

end Scheduler

end Cadence
