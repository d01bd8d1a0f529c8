import Cadence.Proofs.Bound.Closure

/-!
# Obliviousness

A callable is oblivious if what it gives depends on its arguments only, whatever it does to the state of the host
(`Callable.Oblivious`), and a computation is oblivious if it comes to the same in every world (`Host.Oblivious`).
Putting oblivious computations together gives an oblivious one (`Host.Oblivious.closed`), and so what calls oblivious
callables only comes to the same whenever it is made.
-/

namespace Cadence

variable {σ α β : Type}

/-- What a callable gives depends on its arguments only. -/
def Callable.Oblivious (c : Callable σ) : Prop :=
  ∀ arguments s t, (c.act arguments s).1 = (c.act arguments t).1

/-- A computation comes to the same in every world. -/
def Host.Oblivious (m : Host σ α) : Prop :=
  ∀ w v, (m w).1 = (m v).1

namespace Host.Oblivious

theorem ofResult (result : Except Error α) : Oblivious (Host.ofResult result : Host σ α) :=
  fun _ _ => rfl

theorem bind {m : Host σ α} {f : α → Host σ β} (hm : Oblivious m) (hf : ∀ a, Oblivious (f a)) :
    Oblivious (m >>= f) := by
  intro w v
  have hresult := hm w v
  rcases hw : m w with ⟨result, w'⟩
  rcases hv : m v with ⟨result', v'⟩
  rw [hw, hv] at hresult
  obtain rfl : result = result' := hresult
  cases result with
  | error e => rw [Host.bind_of_error hw, Host.bind_of_error hv]
  | ok a =>
    rw [Host.bind_of_ok hw, Host.bind_of_ok hv]
    exact hf a w' v'

theorem closed : Host.Closed fun _ (m : Host σ _) => Oblivious m :=
  ⟨ofResult, bind⟩

end Host.Oblivious

theorem Callable.Oblivious.call {c : Callable σ} (h : c.Oblivious) (name : String) (arguments : List Value) :
    Host.Oblivious (c.call name arguments) := by
  intro w v
  have houtcome := h arguments w.state v.state
  simp only [Callable.call, World.call]
  rw [houtcome]
  cases (c.act arguments v.state).1 <;> rfl

namespace Bound

/-- All callables that a call calls are oblivious. -/
def Call.Oblivious (c : Call σ) : Prop :=
  ∀ node ∈ c.nodes, node.callable.Oblivious

end Bound

end Cadence
