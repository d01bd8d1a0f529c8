import Cadence.Proofs.Bound.Tree

/-!
# Asking for numbers of passes

What is called, in which order, when a bound program asks for its numbers of passes. A call makes the calls within
its arguments first, and then its own (`Bound.Call.callees`). A program asks the calls that give numbers of passes,
those of the schedules within a schedule before its own (`Bound.Item.passesCalls`), and writes the answers in their
places (`Bound.Item.fill`): settling a program is no more than this (`Bound.Statements.asks`).
-/

namespace Cadence.Bound

variable {σ α β γ : Type}

/-! ## What a call calls -/

mutual

/-- The callables that evaluating an argument calls, in order. -/
def Argument.callees : Argument σ → List (Callable σ)
  | .literal _ => []
  | .list items => Arguments.callees items
  | .map entries => Entries.callees entries
  | .call _ callable arguments => Arguments.callees arguments ++ [callable]
termination_by structural a => a

def Arguments.callees : List (Argument σ) → List (Callable σ)
  | [] => []
  | a :: rest => a.callees ++ Arguments.callees rest
termination_by structural a => a

/-- The callables that evaluating the entries of a map calls, those of a key before those of its value. -/
def Entries.callees : List (Argument σ × Argument σ) → List (Callable σ)
  | [] => []
  | (k, v) :: rest => k.callees ++ (v.callees ++ Entries.callees rest)
termination_by structural a => a

end

/-- The callables that a call calls: those of its arguments, and then its own. -/
def Call.callees (c : Call σ) : List (Callable σ) :=
  Arguments.callees c.arguments ++ [c.callable]

mutual

theorem Argument.makes_evaluate : ∀ a : Argument σ, Makes a.callees a.evaluate
  | .literal l => Makes.pure l.toValue
  | .list items => (Arguments.makes_evaluate items).map Value.list
  | .map entries => (Entries.makes_evaluate entries).map Value.map
  | .call name callable arguments => (Arguments.makes_evaluate arguments).bind (Makes.call callable name)

theorem Arguments.makes_evaluate : ∀ arguments : List (Argument σ),
    Makes (Arguments.callees arguments) (Arguments.evaluate arguments)
  | [] => Makes.pure []
  | a :: rest => (Argument.makes_evaluate a).bind fun value => (Arguments.makes_evaluate rest).map (value :: ·)

theorem Entries.makes_evaluate : ∀ entries : List (Argument σ × Argument σ),
    Makes (Entries.callees entries) (Entries.evaluate entries)
  | [] => Makes.pure []
  | (k, v) :: rest => (Argument.makes_evaluate k).bind fun key =>
      (Argument.makes_evaluate v).bind fun value => (Entries.makes_evaluate rest).map ((key, value) :: ·)

end

/-- A call calls what stands in its arguments, from the inside out, and then its own callable. -/
theorem Call.makes_invoke (c : Call σ) : Makes c.callees c.invoke :=
  (Arguments.makes_evaluate c.arguments).bind (Makes.call c.callable c.name)

/-- The number of passes that a call gives, asked for now. -/
def Call.ask (c : Call σ) : Host σ UInt64 := do
  let value ← c.invoke
  Host.ofResult (c.passes value)

theorem Call.ofCall_of_passes {c : Call σ} {value : Value} {e : Error} (h : c.passes value = .error e) : e.OfCall := by
  unfold Call.passes at h
  split at h
  · split at h
    · cases h
    · cases h
      trivial
  · cases h
    trivial

theorem Call.makes_ask (c : Call σ) : Makes c.callees c.ask := by
  rw [← List.append_nil c.callees]
  refine c.makes_invoke.bind fun value => Makes.ofResult ?_
  intro e h
  exact Call.ofCall_of_passes h

theorem makes_mapM_ask (calls : List (Call σ)) : Makes (calls.flatMap Call.callees) (calls.mapM Call.ask) := by
  induction calls with
  | nil => exact Makes.pure []
  | cons c rest ih =>
    rw [List.mapM_cons, List.flatMap_cons]
    exact c.makes_ask.bind fun n => ih.map (n :: ·)

/-! ## The calls for numbers of passes, and their answers -/

/-- The call for a number of passes, if it is one. -/
def Repeat.calls : Repeat σ → List (Call σ)
  | .times _ => []
  | .forever => []
  | .call c => [c]

/-- The number of passes, once the call for it gave the first of some answers. -/
def Repeat.fill : Repeat σ → List UInt64 → Passes
  | .times n, _ => .times n
  | .forever, _ => .forever
  | .call _, counts => .times (counts.headD 1)

mutual

/-- The calls for numbers of passes within an item: those of its items, and then its own. -/
def Item.passesCalls : Item σ (Repeat σ) → List (Call σ)
  | .interval _ => []
  | .call _ => []
  | .schedule items passes => Items.passesCalls items ++ passes.calls
termination_by structural a => a

def Items.passesCalls : List (Item σ (Repeat σ)) → List (Call σ)
  | [] => []
  | a :: rest => a.passesCalls ++ Items.passesCalls rest
termination_by structural a => a

end

mutual

/-- An item with the answers to its calls for numbers of passes, which stand in front of `counts`, in their places. -/
def Item.fill : Item σ (Repeat σ) → List UInt64 → Item σ Passes
  | .interval x, _ => .interval x
  | .call c, _ => .call c
  | .schedule items passes, counts =>
    .schedule (Items.fill items counts) (passes.fill (counts.drop (Items.passesCalls items).length))
termination_by structural a => a

def Items.fill : List (Item σ (Repeat σ)) → List UInt64 → List (Item σ Passes)
  | [], _ => []
  | a :: rest, counts => a.fill counts :: Items.fill rest (counts.drop a.passesCalls.length)
termination_by structural a => a

end

def Schedule.fill (s : Schedule σ (Repeat σ)) (counts : List UInt64) : Schedule σ Passes :=
  ⟨Items.fill s.items counts, s.passes.fill (counts.drop (Items.passesCalls s.items).length)⟩

/-- Some statements with the answers to their calls for numbers of passes in their places. -/
def Statements.fill : List (Statement σ (Repeat σ)) → List UInt64 → List (Statement σ Passes)
  | [], _ => []
  | s :: rest, counts =>
    ⟨s.action, s.schedule.fill counts, s.source⟩
      :: Statements.fill rest (counts.drop s.schedule.toItem.passesCalls.length)

/-- A computation asks some calls, each once and in order, and gives what becomes of the answers. More answers than
there are calls would make no difference. -/
structure Asks (calls : List (Call σ)) (filled : List UInt64 → α) (m : Host σ α) : Prop where
  eq : m = (do
    let counts ← calls.mapM Call.ask
    return filled counts)
  append : ∀ counts more, counts.length = calls.length → filled (counts ++ more) = filled counts

namespace Asks

theorem pure (a : α) : Asks [] (fun _ => a) (pure a : Host σ α) :=
  ⟨rfl, fun _ _ _ => rfl⟩

/-- A computation in two parts asks the calls of the first part, and then those of the second. -/
theorem both {calls others : List (Call σ)} {filled : List UInt64 → α} {filled' : List UInt64 → β} {m : Host σ α}
    {n : Host σ β} (hm : Asks calls filled m) (hn : Asks others filled' n) (f : α → β → γ) :
    Asks (calls ++ others) (fun counts => f (filled counts) (filled' (counts.drop calls.length)))
      (do
        let a ← m
        let b ← n
        return f a b) := by
  constructor
  · rw [hm.eq, hn.eq, List.mapM_append]
    simp only [bind_assoc, pure_bind]
    funext w
    rw [Host.bind_apply, Host.bind_apply]
    rcases h : (calls.mapM Call.ask : Host σ _) w with ⟨e | counts, v⟩
    · rfl
    · -- the answers of the first part are as many as its calls, so the second part finds its own behind them
      have hlen := Host.length_of_mapM h
      simp only [hm.append _ _ hlen, ← hlen, List.drop_left]
  · intro counts more h
    rw [List.length_append] at h
    have htake : (counts.take calls.length).length = calls.length := by
      rw [List.length_take]
      omega
    have hdrop : (counts.drop calls.length).length = others.length := by
      rw [List.length_drop]
      omega
    have hcounts : filled (counts ++ more) = filled counts := by
      have hsplit := hm.append _ (counts.drop calls.length) htake
      have hmore := hm.append _ (counts.drop calls.length ++ more) htake
      rw [← List.append_assoc, List.take_append_drop] at hmore
      rw [List.take_append_drop] at hsplit
      exact hmore.trans hsplit.symm
    rw [hcounts, List.drop_append_of_le_length (by omega), hn.append _ _ hdrop]

theorem map {calls : List (Call σ)} {filled : List UInt64 → α} {m : Host σ α} (hm : Asks calls filled m)
    (f : α → β) : Asks calls (fun counts => f (filled counts)) (m >>= fun a => (Pure.pure (f a) : Host σ β)) := by
  constructor
  · rw [hm.eq]
    simp only [bind_assoc, pure_bind]
  · intro counts more h
    rw [hm.append counts more h]

theorem makes {calls : List (Call σ)} {filled : List UInt64 → α} {m : Host σ α} (hm : Asks calls filled m) :
    Makes (calls.flatMap Call.callees) m := by
  rw [hm.eq]
  exact (makes_mapM_ask calls).map filled

end Asks

theorem Repeat.asks (passes : Repeat σ) : Asks passes.calls passes.fill passes.settle := by
  cases passes with
  | times n => exact Asks.pure _
  | forever => exact Asks.pure _
  | call c =>
    constructor
    · simp only [Repeat.settle, Repeat.calls, Repeat.fill, Call.ask, List.mapM_cons, List.mapM_nil, bind_assoc,
        pure_bind, List.headD_cons]
    · rintro (_ | ⟨n, counts⟩) more h
      · cases h
      · rfl

mutual

theorem Item.asks : ∀ a : Item σ (Repeat σ), Asks a.passesCalls a.fill a.settle
  | .interval _ => Asks.pure _
  | .call _ => Asks.pure _
  | .schedule items passes => (Items.asks items).both passes.asks Item.schedule

theorem Items.asks : ∀ items : List (Item σ (Repeat σ)),
    Asks (Items.passesCalls items) (Items.fill items) (Items.settle items)
  | [] => Asks.pure _
  | a :: rest => (Item.asks a).both (Items.asks rest) List.cons

end

theorem Schedule.asks (s : Schedule σ (Repeat σ)) : Asks s.toItem.passesCalls s.fill s.settle :=
  (Items.asks s.items).both s.passes.asks Schedule.mk

/-- Settling some statements is asking their calls for numbers of passes, each once and in order, and nothing else. -/
theorem Statements.asks (statements : List (Statement σ (Repeat σ))) :
    Asks (statements.flatMap fun s => s.schedule.toItem.passesCalls) (Statements.fill statements)
      (statements.mapM Statement.settle) := by
  induction statements with
  | nil => exact Asks.pure _
  | cons s rest ih =>
    rw [List.mapM_cons, List.flatMap_cons]
    exact (s.schedule.asks.map fun schedule => (⟨s.action, schedule, s.source⟩ : Statement σ Passes)).both ih List.cons

end Cadence.Bound
