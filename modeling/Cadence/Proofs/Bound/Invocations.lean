import Cadence.Proofs.Bound.Asking
import Mathlib.Data.List.Forall2

/-!
# Invocations

What the calls that evaluating a bound call makes have to do with its nodes, which are the call itself and the calls
within its arguments (`Bound.Call.nodes`). Each node is called once, from the inside out, with as many values as it has
arguments; an error is the own failure of the callable that was called last (`Bound.Call.evaluates_invoke`). And a call
that was looked up holds, in each of its nodes, the callable that is registered under the name of the node, with a
number of arguments that it accepts (`Call.registered_of_bound`).
-/

namespace Cadence

variable {σ α β : Type}

namespace Bound

/-! ## Nodes -/

mutual

/-- The calls within an argument, in the order in which they are made. -/
def Argument.nodes : Argument σ → List (Call σ)
  | .literal _ => []
  | .list items => Arguments.nodes items
  | .map entries => Entries.nodes entries
  | .call name callable arguments => Arguments.nodes arguments ++ [⟨name, callable, arguments⟩]
termination_by structural a => a

def Arguments.nodes : List (Argument σ) → List (Call σ)
  | [] => []
  | a :: rest => a.nodes ++ Arguments.nodes rest
termination_by structural a => a

def Entries.nodes : List (Argument σ × Argument σ) → List (Call σ)
  | [] => []
  | (k, v) :: rest => k.nodes ++ (v.nodes ++ Entries.nodes rest)
termination_by structural a => a

end

/-- The calls within the arguments of a call, and then the call itself. -/
def Call.nodes (c : Call σ) : List (Call σ) :=
  Arguments.nodes c.arguments ++ [c]

/-- A call that was made is one of a node: of its callable, with as many values as it has arguments. -/
structure Call.Invoked (node : Call σ) (made : Made σ) : Prop where
  callable : made.1 = node.callable
  length : made.2.length = node.arguments.length

theorem Call.exists_invoked_of_forall₂ {nodes : List (Call σ)} {made : List (Made σ)}
    (h : List.Forall₂ Call.Invoked nodes made) {m : Made σ} (hm : m ∈ made) : ∃ node ∈ nodes, node.Invoked m := by
  obtain ⟨i, hi, rfl⟩ := List.getElem_of_mem hm
  have hi' : i < nodes.length := h.length_eq ▸ hi
  exact ⟨nodes[i], List.getElem_mem hi', h.get hi' hi⟩

/-- The callable of a node fails by itself, or breaks down, when called with the values of a call that was made. -/
inductive Call.Fails (node : Call σ) (made : Made σ) : Error → Prop
  | failed {state : σ} {message : String} : (node.callable.act made.2 state).1 = .failed message →
    Fails node made (.callFailed node.name message)
  | crashed {state : σ} : (node.callable.act made.2 state).1 = .crashed → Fails node made .crashed

/-! ## Evaluation -/

/-- Some calls that were made are those of some nodes, in order. They end early only with a call that fails, and then
its failure is the error. -/
inductive Ran : List (Call σ) → List (Made σ) → Except Error α → Prop
  | ok {nodes : List (Call σ)} {made : List (Made σ)} {a : α} : List.Forall₂ Call.Invoked nodes made →
    Ran nodes made (.ok a)
  | error {before after : List (Call σ)} {node : Call σ} {earlier : List (Made σ)} {last : Made σ} {e : Error} :
    List.Forall₂ Call.Invoked before earlier → node.Invoked last → node.Fails last e →
    Ran (before ++ node :: after) (earlier ++ [last]) (.error e)

namespace Ran

variable {nodes others : List (Call σ)} {made more : List (Made σ)}

theorem invoked {a : α} (h : Ran nodes made (.ok a : Except Error α)) : List.Forall₂ Call.Invoked nodes made := by
  cases h with
  | ok hmade => exact hmade

theorem last {node : Call σ} {m : Made σ} {e : Error} (hm : node.Invoked m) (hfails : node.Fails m e) :
    Ran [node] [m] (.error e : Except Error α) := by
  have h : Ran ([] ++ node :: []) ([] ++ [m]) (.error e : Except Error α) := .error .nil hm hfails
  exact h

theorem before {result : Except Error α} (h : Ran others more result) (hmade : List.Forall₂ Call.Invoked nodes made) :
    Ran (nodes ++ others) (made ++ more) result := by
  cases h with
  | ok hothers => exact .ok (List.rel_append hmade hothers)
  | error hbefore hlast hfails =>
    rw [← List.append_assoc, ← List.append_assoc]
    exact .error (List.rel_append hmade hbefore) hlast hfails

theorem of_error {e : Error} (h : Ran nodes made (.error e : Except Error α)) :
    Ran (nodes ++ others) made (.error e : Except Error β) := by
  cases h with
  | error hbefore hlast hfails =>
    rw [List.append_assoc, List.cons_append]
    exact .error hbefore hlast hfails

/-- Every call that was made is one of a node. -/
theorem exists_invoked {result : Except Error α} (h : Ran nodes made result) {m : Made σ} (hm : m ∈ made) :
    ∃ node ∈ nodes, node.Invoked m := by
  cases h with
  | ok hmade => exact Call.exists_invoked_of_forall₂ hmade hm
  | @error before after node earlier last e hbefore hlast _ =>
    rcases List.mem_append.1 hm with hm | hm
    · obtain ⟨node', hmem, hinvoked⟩ := Call.exists_invoked_of_forall₂ hbefore hm
      exact ⟨node', List.mem_append_left _ hmem, hinvoked⟩
    · rw [List.mem_singleton.1 hm]
      exact ⟨node, by simp, hlast⟩

theorem made_ne_nil {result : Except Error α} (h : Ran nodes made result) (hnodes : nodes ≠ []) : made ≠ [] := by
  intro hnil
  cases h with
  | ok hmade =>
    rw [hnil] at hmade
    exact hnodes (List.forall₂_nil_right_iff.1 hmade)
  | error _ _ _ => exact List.append_ne_nil_of_right_ne_nil _ (List.cons_ne_nil _ _) hnil

end Ran

/-- A computation makes the calls of some nodes, in order, and nothing else happens. -/
def Evaluates (nodes : List (Call σ)) (m : Host σ α) : Prop :=
  ∀ w, ∃ made, (m w).2.journal = w.journalWith made ∧ Ran nodes made (m w).1

namespace Evaluates

theorem pure (a : α) : Evaluates [] (pure a : Host σ α) := by
  intro w
  exact ⟨[], (Makes.journalWith_nil w).symm, .ok .nil⟩

theorem bind {nodes others : List (Call σ)} {m : Host σ α} {f : α → Host σ β} (hm : Evaluates nodes m)
    (hf : ∀ a w w', m w = (.ok a, w') → Evaluates others (f a)) : Evaluates (nodes ++ others) (m >>= f) := by
  intro w
  obtain ⟨made, hjournal, hran⟩ := hm w
  rcases hmw : m w with ⟨e | a, w'⟩
  · rw [hmw] at hjournal hran
    rw [Host.bind_of_error hmw]
    exact ⟨made, hjournal, hran.of_error⟩
  · obtain ⟨more, hjournal', hran'⟩ := hf a w w' hmw w'
    rw [hmw] at hjournal hran
    rw [Host.bind_of_ok hmw]
    exact ⟨made ++ more, World.journalWith_append hjournal hjournal', hran'.before hran.invoked⟩

theorem map {nodes : List (Call σ)} {m : Host σ α} (hm : Evaluates nodes m) (f : α → β) :
    Evaluates nodes (m >>= fun a => (Pure.pure (f a) : Host σ β)) := by
  rw [← List.append_nil nodes]
  exact hm.bind fun a _ _ _ => Evaluates.pure (f a)

theorem call (node : Call σ) {values : List Value} (h : values.length = node.arguments.length) :
    Evaluates [node] (node.callable.call node.name values) := by
  intro w
  have hinvoked : node.Invoked (node.callable, values) := ⟨rfl, h⟩
  refine ⟨[(node.callable, values)], ?_, ?_⟩
  · rcases hact : node.callable.act values w.state with ⟨outcome, state⟩
    simp only [Callable.call, World.call, World.journalWith, hact]
    cases outcome <;> simp
  · rcases hact : node.callable.act values w.state with ⟨_ | message | _, state⟩
    · simp only [Callable.call, World.call, hact]
      exact .ok (.cons hinvoked .nil)
    · simp only [Callable.call, World.call, hact]
      exact .last hinvoked (.failed (congrArg Prod.fst hact))
    · simp only [Callable.call, World.call, hact]
      exact .last hinvoked (.crashed (congrArg Prod.fst hact))

end Evaluates

/-- There are as many values as arguments. -/
theorem Arguments.length_of_evaluate {arguments : List (Argument σ)} {values : List Value} {w w' : World σ}
    (h : Arguments.evaluate arguments w = (.ok values, w')) : values.length = arguments.length := by
  induction arguments generalizing values w with
  | nil =>
    cases h
    rfl
  | cons a rest ih =>
    obtain ⟨value, v, _, h⟩ := Host.bind_eq_ok_iff.1 h
    obtain ⟨others, v', hrest, h⟩ := Host.bind_eq_ok_iff.1 h
    cases h
    rw [List.length_cons, List.length_cons, ih hrest]

mutual

theorem Argument.evaluates : ∀ a : Argument σ, Evaluates a.nodes a.evaluate
  | .literal l => Evaluates.pure l.toValue
  | .list items => (Arguments.evaluates items).map Value.list
  | .map entries => (Entries.evaluates entries).map Value.map
  | .call name callable arguments => (Arguments.evaluates arguments).bind fun _ _ _ h =>
      Evaluates.call ⟨name, callable, arguments⟩ (Arguments.length_of_evaluate h)

theorem Arguments.evaluates : ∀ arguments : List (Argument σ),
    Evaluates (Arguments.nodes arguments) (Arguments.evaluate arguments)
  | [] => Evaluates.pure []
  | a :: rest => (Argument.evaluates a).bind fun value _ _ _ => (Arguments.evaluates rest).map (value :: ·)

theorem Entries.evaluates : ∀ entries : List (Argument σ × Argument σ),
    Evaluates (Entries.nodes entries) (Entries.evaluate entries)
  | [] => Evaluates.pure []
  | (k, v) :: rest => (Argument.evaluates k).bind fun key _ _ _ => (Argument.evaluates v).bind fun value _ _ _ =>
      (Entries.evaluates rest).map ((key, value) :: ·)

end

/-- A call makes the calls of its nodes, each with as many values as the node has arguments. -/
theorem Call.evaluates_invoke (c : Call σ) : Evaluates c.nodes c.invoke :=
  (Arguments.evaluates c.arguments).bind fun _ _ _ h => Evaluates.call c (Arguments.length_of_evaluate h)

/-- Calls that are all asked with success make the calls of their nodes. -/
theorem exists_made_of_mapM_ask {calls : List (Call σ)} {counts : List UInt64} {w w' : World σ}
    (h : (calls.mapM Call.ask : Host σ _) w = (.ok counts, w')) :
    ∃ made, w'.journal = w.journalWith made ∧ List.Forall₂ Call.Invoked (calls.flatMap Call.nodes) made := by
  induction calls generalizing counts w with
  | nil =>
    cases h
    exact ⟨[], (Makes.journalWith_nil _).symm, .nil⟩
  | cons c rest ih =>
    rw [List.mapM_cons] at h
    obtain ⟨n, v, hc, h⟩ := Host.bind_eq_ok_iff.1 h
    obtain ⟨ns, v', hrest, h⟩ := Host.bind_eq_ok_iff.1 h
    cases h
    obtain ⟨value, u, hinvoke, hc⟩ := Host.bind_eq_ok_iff.1 hc
    cases congrArg Prod.snd hc
    obtain ⟨made, hjournal, hran⟩ := c.evaluates_invoke w
    obtain ⟨more, hjournal', hmore⟩ := ih hrest
    rw [hinvoke] at hjournal hran
    exact ⟨made ++ more, World.journalWith_append hjournal hjournal', List.rel_append hran.invoked hmore⟩

/-! ## Registered calls -/

/-- A call holds the callable that is registered under its name, and that accepts its number of arguments. -/
structure Call.Registered (r : Registry σ) (c : Call σ) : Prop where
  found : r.get? c.name = some c.callable
  accepts : c.callable.signature.accepts c.arguments.length = true

end Bound

section Registered

variable {registry functions : Registry σ}

theorem Registry.of_find {name : String} {arguments : List Argument} {c : Callable σ}
    (h : registry.find name arguments = .ok c) :
    registry.get? name = some c ∧ c.signature.accepts arguments.length = true := by
  unfold Registry.find at h
  split at h
  · cases h
  · next callable hget =>
    split at h
    · next haccepts =>
      cases h
      exact ⟨hget, haccepts⟩
    · cases h

theorem Arguments.length_of_bound {arguments : List Argument} {bound : List (Bound.Argument σ)}
    (h : Arguments.bound functions arguments = .ok bound) : bound.length = arguments.length := by
  induction arguments generalizing bound with
  | nil =>
    cases h
    rfl
  | cons a rest ih =>
    obtain ⟨a', _, h⟩ := result_bind_eq_ok_iff.1 h
    obtain ⟨rest', hrest, h⟩ := result_bind_eq_ok_iff.1 h
    cases h
    rw [List.length_cons, List.length_cons, ih hrest]

/-- A call that was looked up is registered, if the callable and the arguments in it are those that were found. -/
theorem Bound.Call.registered_of_find {name : String} {arguments : List Cadence.Argument} {callable : Callable σ}
    {bound : List (Bound.Argument σ)} (hfind : registry.find name arguments = .ok callable)
    (harguments : Cadence.Arguments.bound functions arguments = .ok bound) :
    Bound.Call.Registered registry ⟨name, callable, bound⟩ := by
  obtain ⟨hget, haccepts⟩ := Registry.of_find hfind
  refine ⟨hget, ?_⟩
  rw [Arguments.length_of_bound harguments]
  exact haccepts

mutual

theorem Argument.registered_of_bound : ∀ {a : Argument} {b : Bound.Argument σ}, a.bound functions = .ok b →
    ∀ node ∈ b.nodes, node.Registered functions
  | .literal _, _, h => by
    cases h
    simp [Bound.Argument.nodes]
  | .list items, _, h => by
    obtain ⟨items', hi, h⟩ := result_bind_eq_ok_iff.1 h
    cases h
    exact Arguments.registered_of_bound hi
  | .map entries, _, h => by
    obtain ⟨entries', he, h⟩ := result_bind_eq_ok_iff.1 h
    cases h
    exact Entries.registered_of_bound he
  | .call name arguments, _, h => by
    obtain ⟨callable, hc, h⟩ := result_bind_eq_ok_iff.1 h
    obtain ⟨arguments', ha, h⟩ := result_bind_eq_ok_iff.1 h
    cases h
    intro node hnode
    rcases List.mem_append.1 hnode with hnode | hnode
    · exact Arguments.registered_of_bound ha node hnode
    · rw [List.mem_singleton.1 hnode]
      exact Bound.Call.registered_of_find hc ha

theorem Arguments.registered_of_bound : ∀ {arguments : List Argument} {b : List (Bound.Argument σ)},
    Arguments.bound functions arguments = .ok b → ∀ node ∈ Bound.Arguments.nodes b, node.Registered functions
  | [], _, h => by
    cases h
    simp [Bound.Arguments.nodes]
  | a :: rest, _, h => by
    obtain ⟨a', ha, h⟩ := result_bind_eq_ok_iff.1 h
    obtain ⟨rest', hr, h⟩ := result_bind_eq_ok_iff.1 h
    cases h
    intro node hnode
    rcases List.mem_append.1 hnode with hnode | hnode
    · exact Argument.registered_of_bound ha node hnode
    · exact Arguments.registered_of_bound hr node hnode

theorem Entries.registered_of_bound : ∀ {entries : Entries} {b : List (Bound.Argument σ × Bound.Argument σ)},
    Entries.bound functions entries = .ok b → ∀ node ∈ Bound.Entries.nodes b, node.Registered functions
  | [], _, h => by
    cases h
    simp [Bound.Entries.nodes]
  | (k, v) :: rest, _, h => by
    obtain ⟨k', hk, h⟩ := result_bind_eq_ok_iff.1 h
    obtain ⟨v', hv, h⟩ := result_bind_eq_ok_iff.1 h
    obtain ⟨rest', hr, h⟩ := result_bind_eq_ok_iff.1 h
    cases h
    intro node hnode
    rcases List.mem_append.1 hnode with hnode | hnode
    · exact Argument.registered_of_bound hk node hnode
    · rcases List.mem_append.1 hnode with hnode | hnode
      · exact Argument.registered_of_bound hv node hnode
      · exact Entries.registered_of_bound hr node hnode

end

/-- A call that was looked up is registered, and so are the calls within its arguments, among the functions. -/
theorem Call.registered_of_bound {c : Call} {b : Bound.Call σ} (h : c.bound registry functions = .ok b) :
    b.Registered registry ∧ ∀ node ∈ Bound.Arguments.nodes b.arguments, node.Registered functions := by
  obtain ⟨callable, hc, h⟩ := result_bind_eq_ok_iff.1 h
  obtain ⟨arguments, ha, h⟩ := result_bind_eq_ok_iff.1 h
  cases h
  exact ⟨Bound.Call.registered_of_find hc ha, Arguments.registered_of_bound ha⟩

/-- All nodes of a call that was looked up among the functions are registered there. -/
theorem Call.registered_nodes_of_bound {c : Call} {b : Bound.Call σ} (h : c.bound functions functions = .ok b) :
    ∀ node ∈ b.nodes, node.Registered functions := by
  obtain ⟨hself, harguments⟩ := Call.registered_of_bound h
  intro node hnode
  rcases List.mem_append.1 hnode with hnode | hnode
  · exact harguments node hnode
  · rw [List.mem_singleton.1 hnode]
    exact hself

end Registered

end Cadence
