/-!
# Signatures

A signature lists the parameters of a callable: required ones, optional ones, and perhaps a name for any number
of further arguments. A receiver is shown but takes no argument.
-/

namespace Cadence

structure Signature where
  /-- Whether the callable belongs to a receiver. -/
  receiver : Bool
  required : List String
  optional : List String
  /-- The name of the parameter for all further arguments, if there is one. -/
  variadic : Option String
deriving DecidableEq, Repr

namespace Signature

/-- The signature with the given required parameters only. -/
def positional (required : List String) : Signature :=
  ⟨false, required, [], none⟩

/-- The signature with a parameter for any number of further arguments. -/
def withVariadic (s : Signature) (name : String) : Signature :=
  { s with variadic := some name }

/-- The least number of arguments. -/
def minArguments (s : Signature) : Nat :=
  s.required.length

/-- The greatest number of arguments, if there is one. -/
def maxArguments (s : Signature) : Option Nat :=
  match s.variadic with
  | some _ => none
  | none => some (s.required.length + s.optional.length)

/-- Whether a callable can be called with so many arguments. -/
def accepts (s : Signature) (count : Nat) : Bool :=
  s.minArguments ≤ count && match s.maxArguments with
    | some most => count ≤ most
    | none => true

def text (s : Signature) : String :=
  let parts := (if s.receiver then ["self"] else []) ++ s.required ++ s.optional.map (· ++ "=?")
    ++ (s.variadic.map ("*" ++ ·)).toList
  "(" ++ String.intercalate ", " parts ++ ")"

end Signature

end Cadence
