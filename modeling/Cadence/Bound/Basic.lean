import Cadence.Callable.Registry

/-!
# Bound programs

In a bound program every call holds the callable that its name stands for. The number of passes of a schedule is
of a type `π` of its own, which is `Bound.Passes` when all of them are known.
-/

namespace Cadence.Bound

/-- An argument whose calls hold their callables. -/
inductive Argument (σ : Type)
  | literal (value : Literal)
  | list (items : List (Argument σ))
  | map (entries : List (Argument σ × Argument σ))
  | call (name : String) (callable : Callable σ) (arguments : List (Argument σ))

structure Call (σ : Type) where
  /-- The name that the program calls it by. -/
  name : String
  callable : Callable σ
  arguments : List (Argument σ)

def Call.toArgument {σ : Type} (c : Call σ) : Argument σ :=
  .call c.name c.callable c.arguments

inductive Passes
  | times (count : UInt64)
  | forever
deriving DecidableEq, Repr

/-- Whether so many passes are all. -/
def Passes.isComplete : Passes → UInt64 → Bool
  | times count, passes => count ≤ passes
  | forever, _ => false

inductive Item (σ π : Type)
  | interval (seconds : Binary64)
  | call (call : Call σ)
  | schedule (items : List (Item σ π)) (passes : π)

structure Schedule (σ π : Type) where
  items : List (Item σ π)
  passes : π

def Schedule.toItem {σ π : Type} (s : Schedule σ π) : Item σ π :=
  .schedule s.items s.passes

structure Statement (σ π : Type) where
  action : Call σ
  schedule : Schedule σ π
  source : String

/-! ## Written form -/

section Written

variable {σ : Type}

mutual

def Argument.chars : Argument σ → List Char
  | .literal l => l.chars
  | .list items => '[' :: commaSeparated (Arguments.charsOfEach items) ++ [']']
  | .map entries => '\x7b' :: commaSeparated (Entries.charsOfEach entries) ++ ['\x7d']
  | .call name _ arguments => name.toList ++ '(' :: commaSeparated (Arguments.charsOfEach arguments) ++ [')']
termination_by structural a => a

def Arguments.charsOfEach : List (Argument σ) → List (List Char)
  | [] => []
  | a :: rest => a.chars :: Arguments.charsOfEach rest
termination_by structural a => a

def Entries.charsOfEach : List (Argument σ × Argument σ) → List (List Char)
  | [] => []
  | (k, v) :: rest => (k.chars ++ ':' :: ' ' :: v.chars) :: Entries.charsOfEach rest
termination_by structural a => a

end

def Call.text (c : Call σ) : String :=
  String.ofList c.toArgument.chars

def Passes.chars : Passes → List Char
  | .times n => Nat.toDigits 10 n.toNat
  | .forever => ['*']

mutual

def Item.chars : Item σ Passes → List Char
  | .interval x => x.chars .program
  | .call c => c.toArgument.chars
  | .schedule items passes => '[' :: commaSeparated (Items.charsOfEach items) ++ ']' :: ':' :: passes.chars
termination_by structural a => a

def Items.charsOfEach : List (Item σ Passes) → List (List Char)
  | [] => []
  | a :: rest => a.chars :: Items.charsOfEach rest
termination_by structural a => a

end

def Schedule.text (s : Schedule σ Passes) : String :=
  String.ofList s.toItem.chars

end Written

end Cadence.Bound
