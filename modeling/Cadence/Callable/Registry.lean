import Cadence.Callable.Basic
import Cadence.Error

/-!
# Registries

A registry holds the callables of one kind under names that are all different, in the order of registration. A
callable goes by an alias or by its own name; a name that is taken stays with its first callable.
-/

namespace Cadence

structure Registry (σ : Type) where
  kind : Kind
  entries : List (String × Callable σ)

namespace Registry

variable {σ : Type}

def empty (kind : Kind) : Registry σ :=
  ⟨kind, []⟩

def get? (r : Registry σ) (name : String) : Option (Callable σ) :=
  r.entries.lookup name

def contains (r : Registry σ) (name : String) : Bool :=
  r.entries.any (·.1 == name)

/-- The names, in order of registration. -/
def names (r : Registry σ) : List String :=
  r.entries.map (·.1)

def size (r : Registry σ) : Nat :=
  r.entries.length

/-- Adds a callable under an alias or its own name, if that name is free. -/
def register (r : Registry σ) (c : Callable σ) (alias? : Option String) : Except Error (Registry σ) :=
  let name := alias?.getD c.name
  if r.contains name then .error (.duplicate r.kind name)
  else .ok { r with entries := r.entries ++ [(name, c)] }

theorem contains_iff_mem_names (r : Registry σ) (name : String) : r.contains name = true ↔ name ∈ r.names := by
  simp [contains, names]

end Registry

end Cadence
