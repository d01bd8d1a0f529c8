import Cadence.Proofs.Bound.Invocations

/-!
# The answers within a call

What evaluating a bound call comes to, call by call. The calls within it are made in the order of `Bound.Call.nodes`,
each in the world that the one before it left (`Bound.Answering`), and each is handed its evaluated arguments: the
values that its arguments have once the answers of the calls within them stand in the places of these calls
(`Bound.Arguments.filled`). A call that breaks down is the last one, and its error is the error. The key fact is that
this goes through computations in two parts (`Bound.Unfolds.bind`).
-/

namespace Cadence.Bound

variable {σ α β : Type}

/-! ## Arguments filled with answers -/

mutual

/-- The value of an argument, given the answers of all calls within it in the order in which they are made. A literal
is the integer, float, string or boolean that was written. The answer of a call itself comes after those of the calls
within its arguments. -/
def Argument.filled : Argument σ → List Value → Value
  | .literal (.number (.int i)), _ => .int i
  | .literal (.number (.float x)), _ => .float x
  | .literal (.string s), _ => .string s
  | .literal (.boolean b), _ => .boolean b
  | .list items, answers => .list (Arguments.filled items answers)
  | .map entries, answers => .map (Entries.filled entries answers)
  | .call _ _ _, answers => answers.getLastD .null
termination_by structural a => a

def Arguments.filled : List (Argument σ) → List Value → List Value
  | [], _ => []
  | a :: rest, answers =>
    a.filled (answers.take a.nodes.length) :: Arguments.filled rest (answers.drop a.nodes.length)
termination_by structural a => a

def Entries.filled : List (Argument σ × Argument σ) → List Value → List (Value × Value)
  | [], _ => []
  | (k, v) :: rest, answers =>
    (k.filled (answers.take k.nodes.length), v.filled ((answers.drop k.nodes.length).take v.nodes.length))
      :: Entries.filled rest ((answers.drop k.nodes.length).drop v.nodes.length)
termination_by structural a => a

end

/-! ## Calls that were answered -/

/-- A call that was made: the node that it is of, the values that it was handed, and what it gave. -/
structure Answered (σ : Type) where
  node : Call σ
  values : List Value
  answer : Value

/-- Some calls were made from one world to another, one after the other, and all of them gave a value. -/
inductive Answering : World σ → List (Answered σ) → World σ → Prop
  | nil {w : World σ} : Answering w [] w
  | cons {a : Answered σ} {rest : List (Answered σ)} {w v w' : World σ} :
    w.call a.node.callable a.values = (.returned a.answer, v) → Answering v rest w' → Answering w (a :: rest) w'

theorem Answering.append {answered more : List (Answered σ)} {w v w' : World σ} (h : Answering w answered v)
    (h' : Answering v more w') : Answering w (answered ++ more) w' := by
  induction h with
  | nil => exact h'
  | cons hcall _ ih => exact .cons hcall (ih h')

theorem journal_call (w : World σ) (c : Callable σ) (values : List Value) :
    (w.call c values).2.journal = w.journalWith [(c, values)] := by
  simp [World.call, World.journalWith]

/-- The journal grows by the calls that were made. -/
theorem Answering.journal {answered : List (Answered σ)} {w w' : World σ} (h : Answering w answered w') :
    w'.journal = w.journalWith (answered.map fun a => (a.node.callable, a.values)) := by
  induction h with
  | nil => exact (Makes.journalWith_nil _).symm
  | @cons a rest w v w' hcall _ ih =>
    have hfirst := journal_call w a.node.callable a.values
    rw [hcall] at hfirst
    exact World.journalWith_append hfirst ih

/-- A call that is made after some others is handed its evaluated arguments: the calls within these were made just
before, in order, and their answers stand in their places. -/
def Handed (before : List (Answered σ)) (node : Call σ) (values : List Value) : Prop :=
  ∃ earlier own, before = earlier ++ own ∧ own.map (·.node) = Arguments.nodes node.arguments ∧
    values = Arguments.filled node.arguments (own.map (·.answer))

theorem Handed.after {before : List (Answered σ)} {node : Call σ} {values : List Value} (h : Handed before node values)
    (others : List (Answered σ)) : Handed (others ++ before) node values := by
  obtain ⟨earlier, own, rfl, hnodes, hvalues⟩ := h
  exact ⟨others ++ earlier, own, (List.append_assoc _ _ _).symm, hnodes, hvalues⟩

/-- Each of some calls was handed its evaluated arguments. -/
inductive AllHanded : List (Answered σ) → Prop
  | nil : AllHanded []
  | concat {before : List (Answered σ)} {a : Answered σ} : AllHanded before → Handed before a.node a.values →
    AllHanded (before ++ [a])

theorem AllHanded.append {answered more : List (Answered σ)} (h : AllHanded answered) (h' : AllHanded more) :
    AllHanded (answered ++ more) := by
  induction h' with
  | nil =>
    rw [List.append_nil]
    exact h
  | concat _ hlast ih =>
    rw [← List.append_assoc]
    exact .concat ih (hlast.after answered)

/-- A node is called in a world and fails or breaks down. A failure is given with the name that the program calls the
node by. -/
inductive Call.Breaks (node : Call σ) (values : List Value) (w : World σ) : Error → World σ → Prop
  | failed {message : String} {w' : World σ} : w.call node.callable values = (.failed message, w') →
    Breaks node values w (.callFailed node.name message) w'
  | crashed {w' : World σ} : w.call node.callable values = (.crashed, w') → Breaks node values w .crashed w'

theorem Call.Breaks.journal {node : Call σ} {values : List Value} {w w' : World σ} {e : Error}
    (h : node.Breaks values w e w') : w'.journal = w.journalWith [(node.callable, values)] := by
  rw [← journal_call]
  cases h with
  | failed hcall => rw [hcall]
  | crashed hcall => rw [hcall]

/-! ## Computations call by call -/

/-- In a world, a computation makes the calls of some nodes and gives what their answers come to, or the error of the
first one that breaks down, after which nothing is called. -/
inductive UnfoldsIn (nodes : List (Call σ)) (m : Host σ α) (value : List Value → α) (w : World σ) : Prop
  | ok {answered : List (Answered σ)} {w' : World σ} : Answering w answered w' → answered.map (·.node) = nodes →
    AllHanded answered → m w = (.ok (value (answered.map (·.answer))), w') → UnfoldsIn nodes m value w
  | error {answered : List (Answered σ)} {node : Call σ} {after : List (Call σ)} {values : List Value} {e : Error}
    {v w' : World σ} : Answering w answered v → nodes = answered.map (·.node) ++ node :: after →
    AllHanded answered → Handed answered node values → node.Breaks values v e w' → m w = (.error e, w') →
    UnfoldsIn nodes m value w

def Unfolds (nodes : List (Call σ)) (m : Host σ α) (value : List Value → α) : Prop :=
  ∀ w, UnfoldsIn nodes m value w

namespace Unfolds

theorem pure (a : α) : Unfolds [] (Pure.pure a : Host σ α) fun _ => a :=
  fun _ => .ok .nil rfl .nil rfl

/-- The answers in the first part of a computation come first, and those in the second part after them. -/
theorem bind {nodes others : List (Call σ)} {m : Host σ α} {f : α → Host σ β} {value : List Value → α}
    {value' : α → List Value → β} (hm : Unfolds nodes m value) (hf : ∀ a, Unfolds others (f a) (value' a)) :
    Unfolds (nodes ++ others) (m >>= f) fun answers =>
      value' (value (answers.take nodes.length)) (answers.drop nodes.length) := by
  intro w
  cases hm w with
  | @ok answered v hanswering hnodes hhanded hmw =>
    have hlength : (answered.map (·.answer)).length = nodes.length := by
      rw [← hnodes, List.length_map, List.length_map]
    cases hf (value (answered.map (·.answer))) v with
    | ok hanswering' hnodes' hhanded' hfw =>
      refine .ok (hanswering.append hanswering') ?_ (hhanded.append hhanded') ?_
      · rw [List.map_append, hnodes, hnodes']
      · rw [Host.bind_of_ok hmw, hfw, List.map_append, List.take_left' hlength, List.drop_left' hlength]
    | @error more node after values e v' w' hanswering' hnodes' hhanded' hlast hbreaks hfw =>
      have hsplit : nodes ++ others = (answered ++ more).map (·.node) ++ node :: after := by
        rw [hnodes', List.map_append, hnodes, List.append_assoc]
      refine .error (hanswering.append hanswering') hsplit (hhanded.append hhanded') (hlast.after answered) hbreaks ?_
      rw [Host.bind_of_ok hmw, hfw]
  | @error answered node after values e v w' hanswering hnodes hhanded hlast hbreaks hmw =>
    have hsplit : nodes ++ others = answered.map (·.node) ++ node :: (after ++ others) := by
      rw [hnodes, List.append_assoc, List.cons_append]
    exact .error hanswering hsplit hhanded hlast hbreaks (Host.bind_of_error hmw f)

theorem map {nodes : List (Call σ)} {m : Host σ α} {value : List Value → α} (hm : Unfolds nodes m value) (f : α → β) :
    Unfolds nodes (m >>= fun a => (Pure.pure (f a) : Host σ β)) fun answers => f (value answers) := by
  intro w
  cases hm w with
  | ok hanswering hnodes hhanded hmw => exact .ok hanswering hnodes hhanded (Host.bind_of_ok hmw _)
  | error hanswering hnodes hhanded hlast hbreaks hmw =>
    exact .error hanswering hnodes hhanded hlast hbreaks (Host.bind_of_error hmw _)

/-- A node is called with its evaluated arguments, right after the calls within them. -/
theorem call (node : Call σ) {m : Host σ (List Value)}
    (hm : Unfolds (Arguments.nodes node.arguments) m (Arguments.filled node.arguments)) :
    Unfolds (Arguments.nodes node.arguments ++ [node]) (m >>= node.callable.call node.name) fun answers =>
      answers.getLastD .null := by
  intro w
  cases hm w with
  | @ok answered v hanswering hnodes hhanded hmw =>
    have hself : Handed answered node (Arguments.filled node.arguments (answered.map (·.answer))) :=
      ⟨[], answered, rfl, hnodes, rfl⟩
    have hsplit : Arguments.nodes node.arguments ++ [node] = answered.map (·.node) ++ node :: [] := by
      rw [hnodes]
    have hbind := Host.bind_of_ok hmw (node.callable.call node.name)
    rcases hcall : v.call node.callable (Arguments.filled node.arguments (answered.map (·.answer))) with
      ⟨answer | message | _, w'⟩
    · refine .ok (hanswering.append (.cons (a := ⟨node, _, answer⟩) hcall .nil)) ?_ (.concat hhanded hself) ?_
      · rw [hsplit, List.map_append]
        rfl
      · rw [hbind, Callable.call, hcall, List.map_append]
        exact congrArg (fun value => (Except.ok value, w')) List.getLastD_concat.symm
    · refine .error hanswering hsplit hhanded hself (.failed hcall) ?_
      rw [hbind, Callable.call, hcall]
    · refine .error hanswering hsplit hhanded hself (.crashed hcall) ?_
      rw [hbind, Callable.call, hcall]
  | @error answered inner after values e v w' hanswering hnodes hhanded hlast hbreaks hmw =>
    have hsplit : Arguments.nodes node.arguments ++ [node] = answered.map (·.node) ++ inner :: (after ++ [node]) := by
      rw [hnodes, List.append_assoc, List.cons_append]
    exact .error hanswering hsplit hhanded hlast hbreaks (Host.bind_of_error hmw _)

end Unfolds

mutual

theorem Argument.unfolds : ∀ a : Argument σ, Unfolds a.nodes a.evaluate a.filled
  | .literal (.number (.int i)) => Unfolds.pure (Value.int i)
  | .literal (.number (.float x)) => Unfolds.pure (Value.float x)
  | .literal (.string s) => Unfolds.pure (Value.string s)
  | .literal (.boolean b) => Unfolds.pure (Value.boolean b)
  | .list items => (Arguments.unfolds items).map Value.list
  | .map entries => (Entries.unfolds entries).map Value.map
  | .call name callable arguments => Unfolds.call ⟨name, callable, arguments⟩ (Arguments.unfolds arguments)

theorem Arguments.unfolds : ∀ arguments : List (Argument σ),
    Unfolds (Arguments.nodes arguments) (Arguments.evaluate arguments) (Arguments.filled arguments)
  | [] => Unfolds.pure []
  | a :: rest => (Argument.unfolds a).bind fun value => (Arguments.unfolds rest).map (value :: ·)

theorem Entries.unfolds : ∀ entries : List (Argument σ × Argument σ),
    Unfolds (Entries.nodes entries) (Entries.evaluate entries) (Entries.filled entries)
  | [] => Unfolds.pure []
  | (k, v) :: rest => (Argument.unfolds k).bind fun key => (Argument.unfolds v).bind fun value =>
      (Entries.unfolds rest).map ((key, value) :: ·)

end

/-- In every world, a call makes the calls of its nodes from the inside out and from left to right, each once, each in
the world that the one before it left and with the values of its arguments, in which the answers of the calls within
them stand in their places. It gives the answer of the last one, which is its own; or else the failure of the first one
that fails, with the name that the program calls that one by, and none after it is made. -/
theorem Call.invoke_eq_answers (c : Call σ) (w : World σ) :
    (∃ earlier last w', (earlier ++ [last]).map (·.node) = c.nodes ∧ Answering w (earlier ++ [last]) w' ∧
      AllHanded (earlier ++ [last]) ∧
      w'.journal = w.journalWith ((earlier ++ [last]).map fun a => (a.node.callable, a.values)) ∧
      c.invoke w = (.ok last.answer, w')) ∨
    ∃ answered node after values e v w', c.nodes = answered.map (·.node) ++ node :: after ∧ Answering w answered v ∧
      AllHanded answered ∧ Handed answered node values ∧ node.Breaks values v e w' ∧
      w'.journal = w.journalWith (answered.map (fun a => (a.node.callable, a.values)) ++ [(node.callable, values)]) ∧
      c.invoke w = (.error e, w') := by
  cases Unfolds.call c (Arguments.unfolds c.arguments) w with
  | @ok answered w' hanswering hnodes hhanded hinvoke =>
    rcases List.eq_nil_or_concat' answered with rfl | ⟨earlier, last, rfl⟩
    · exact absurd hnodes.symm (List.append_ne_nil_of_right_ne_nil _ (List.cons_ne_nil c []))
    · refine .inl ⟨earlier, last, w', hnodes, hanswering, hhanded, hanswering.journal, ?_⟩
      rw [List.map_append] at hinvoke
      exact hinvoke.trans (congrArg (fun value => (Except.ok value, w')) List.getLastD_concat)
  | @error answered node after values e v w' hanswering hnodes hhanded hlast hbreaks hinvoke =>
    refine .inr ⟨answered, node, after, values, e, v, w', hnodes, hanswering, hhanded, hlast, hbreaks, ?_, hinvoke⟩
    exact World.journalWith_append hanswering.journal hbreaks.journal

end Cadence.Bound
