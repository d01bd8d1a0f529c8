import Cadence.Proofs.Bound.Closure

/-!
# Confinement

The state of a host may be a product, with one component for each of several users. A callable is confined to a
component if it reads and writes no other (`Callable.Confined`). A computation stays in a component if what it comes to,
and the component afterwards, depend on no other one, and no other one changes (`StaysIn`). Computations that stay in a
component are closed under putting them together, and so a call whose nodes are confined stays in their component
(`Bound.Call.Confined.staysIn_invoke`).
-/

namespace Cadence

variable {ι : Type} {τ : ι → Type} {α β : Type} {i : ι}

/-- A callable that reads and writes one component of the state only. -/
structure Callable.Confined (i : ι) (c : Callable (∀ j, τ j)) : Prop where
  reads : ∀ arguments s t, s i = t i →
    (c.act arguments s).1 = (c.act arguments t).1 ∧ (c.act arguments s).2 i = (c.act arguments t).2 i
  writes : ∀ arguments s j, j ≠ i → (c.act arguments s).2 j = s j

/-- A computation that depends on one component of the state only, and changes no other. -/
structure StaysIn (i : ι) (m : StateM (World (∀ j, τ j)) α) : Prop where
  reads : ∀ w v, w.state i = v.state i → (m w).1 = (m v).1 ∧ (m w).2.state i = (m v).2.state i
  writes : ∀ w j, j ≠ i → (m w).2.state j = w.state j

namespace StaysIn

theorem pure (a : α) : StaysIn i (pure a : StateM (World (∀ j, τ j)) α) where
  reads _ _ h := ⟨rfl, h⟩
  writes _ _ _ := rfl

theorem bind {m : StateM (World (∀ j, τ j)) α} {f : α → StateM (World (∀ j, τ j)) β} (hm : StaysIn i m)
    (hf : ∀ a, StaysIn i (f a)) : StaysIn i (m >>= f) where
  reads := by
    intro w v h
    obtain ⟨hresult, hstate⟩ := hm.reads w v h
    rw [state_bind_apply, state_bind_apply, hresult]
    exact (hf (m v).1).reads _ _ hstate
  writes := by
    intro w j hj
    rw [state_bind_apply, (hf _).writes _ j hj]
    exact hm.writes w j hj

theorem map {m : StateM (World (∀ j, τ j)) α} (hm : StaysIn i m) (f : α → β) :
    StaysIn i (m >>= fun a => (Pure.pure (f a) : StateM (World (∀ j, τ j)) β)) :=
  hm.bind fun a => StaysIn.pure (f a)

theorem host_bind {m : Host (∀ j, τ j) α} {f : α → Host (∀ j, τ j) β} (hm : StaysIn i m.run)
    (hf : ∀ a, StaysIn i (f a).run) : StaysIn i (m >>= f).run := by
  rw [ExceptT.run_bind]
  refine hm.bind fun result => ?_
  cases result with
  | ok a => exact hf a
  | error e => exact StaysIn.pure (Except.error e)

theorem host_pure (a : α) : StaysIn i (Pure.pure a : Host (∀ j, τ j) α).run :=
  StaysIn.pure (Except.ok a)

theorem ofResult (result : Except Error α) : StaysIn i (Host.ofResult result : Host (∀ j, τ j) α).run :=
  StaysIn.pure result

theorem closed : Host.Closed fun _ (m : Host (∀ j, τ j) _) => StaysIn i m.run :=
  ⟨ofResult, host_bind⟩

end StaysIn

/-! ## Calls -/

theorem Callable.Confined.staysIn_call {c : Callable (∀ j, τ j)} (h : c.Confined i) (name : String)
    (arguments : List Value) : StaysIn i (c.call name arguments).run where
  reads := by
    intro w v hstate
    obtain ⟨houtcome, hafter⟩ := h.reads arguments w.state v.state hstate
    simp only [ExceptT.run, Callable.call, World.call]
    rw [houtcome]
    cases (c.act arguments v.state).1 <;> exact ⟨rfl, hafter⟩
  writes := by
    intro w j hj
    have hothers := h.writes arguments w.state j hj
    simp only [ExceptT.run, Callable.call, World.call]
    cases (c.act arguments w.state).1 <;> exact hothers

namespace Bound

/-- A call all of whose nodes are confined to a component. -/
def Call.Confined (i : ι) (c : Call (∀ j, τ j)) : Prop :=
  ∀ node ∈ c.nodes, node.callable.Confined i

theorem Call.Confined.staysIn_invoke {c : Call (∀ j, τ j)} (h : c.Confined i) : StaysIn i c.invoke.run :=
  StaysIn.closed.invoke fun node hnode values => (h node hnode).staysIn_call node.name values

end Bound

end Cadence
