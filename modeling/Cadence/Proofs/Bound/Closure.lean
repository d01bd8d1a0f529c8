import Cadence.Proofs.Bound.Invocations

/-!
# Properties of evaluations

A property of computations that is kept when they are put together holds of evaluating a bound call as soon as it holds
of calling each of its nodes, with whatever values (`Host.Closed.invoke`). This is the induction over the arguments of a
call, made once.
-/

namespace Cadence

variable {σ : Type}

/-- A property of computations that results have, and that is kept when computations are put together. -/
structure Host.Closed (P : ∀ α : Type, Host σ α → Prop) : Prop where
  ofResult : ∀ {α : Type} (result : Except Error α), P α (Host.ofResult result)
  bind : ∀ {α β : Type} {m : Host σ α} {f : α → Host σ β}, P α m → (∀ a, P β (f a)) → P β (m >>= f)

namespace Host.Closed

variable {P : ∀ α : Type, Host σ α → Prop}

theorem pure (hP : Closed P) {α : Type} (a : α) : P α (pure a) :=
  hP.ofResult (.ok a)

theorem mapM (hP : Closed P) {α β : Type} {f : α → Host σ β} {l : List α} (h : ∀ a ∈ l, P β (f a)) :
    P (List β) (l.mapM f) := by
  induction l with
  | nil => exact hP.pure []
  | cons a rest ih =>
    rw [List.mapM_cons]
    have hrest := ih fun b hb => h b (List.mem_cons_of_mem a hb)
    exact hP.bind (h a List.mem_cons_self) fun b => hP.bind hrest fun bs => hP.pure (b :: bs)

/-- Calling a node has a property, whatever values it is called with. -/
def Calling (P : ∀ α : Type, Host σ α → Prop) (node : Bound.Call σ) : Prop :=
  ∀ values, P Value (node.callable.call node.name values)

mutual

theorem evaluate (hP : Closed P) : ∀ a : Bound.Argument σ, (∀ node ∈ a.nodes, Calling P node) → P Value a.evaluate
  | .literal l, _ => hP.pure l.toValue
  | .list items, h => hP.bind (evaluate_arguments hP items h) fun values => hP.pure (Value.list values)
  | .map entries, h => hP.bind (evaluate_entries hP entries h) fun values => hP.pure (Value.map values)
  | .call name callable arguments, h => by
    have harguments := fun node hnode => h node (List.mem_append_left _ hnode)
    have hcallable := h _ (List.mem_append_right _ (List.mem_singleton_self _))
    exact hP.bind (evaluate_arguments hP arguments harguments) hcallable

theorem evaluate_arguments (hP : Closed P) : ∀ arguments : List (Bound.Argument σ),
    (∀ node ∈ Bound.Arguments.nodes arguments, Calling P node) → P (List Value) (Bound.Arguments.evaluate arguments)
  | [], _ => hP.pure []
  | a :: rest, h => by
    have ha := fun node hnode => h node (List.mem_append_left _ hnode)
    have hrest := fun node hnode => h node (List.mem_append_right _ hnode)
    exact hP.bind (evaluate hP a ha) fun value =>
      hP.bind (evaluate_arguments hP rest hrest) fun values => hP.pure (value :: values)

theorem evaluate_entries (hP : Closed P) : ∀ entries : List (Bound.Argument σ × Bound.Argument σ),
    (∀ node ∈ Bound.Entries.nodes entries, Calling P node) →
      P (List (Value × Value)) (Bound.Entries.evaluate entries)
  | [], _ => hP.pure []
  | (k, v) :: rest, h => by
    have hk := fun node hnode => h node (List.mem_append_left _ hnode)
    have hv := fun node hnode => h node (List.mem_append_right _ (List.mem_append_left _ hnode))
    have hrest := fun node hnode => h node (List.mem_append_right _ (List.mem_append_right _ hnode))
    exact hP.bind (evaluate hP k hk) fun key => hP.bind (evaluate hP v hv) fun value =>
      hP.bind (evaluate_entries hP rest hrest) fun values => hP.pure ((key, value) :: values)

end

/-- A call has a property if calling each of its nodes has it. -/
theorem invoke (hP : Closed P) {c : Bound.Call σ} (h : ∀ node ∈ c.nodes, Calling P node) : P Value c.invoke :=
  evaluate hP c.toArgument h

end Host.Closed

end Cadence
