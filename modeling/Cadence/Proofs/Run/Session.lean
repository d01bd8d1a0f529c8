import Cadence.Proofs.Bound.Invocations
import Cadence.Proofs.Run.Counts

/-!
# Sessions

What can happen to a bound program. A session begins in some world without cursors; it goes on by starting cursors over
schedules of the program, at any depth, by pulling them, and by calling actions, in any order, while delays pass and the
host's state changes by itself (`Session.Step`). The key facts: a bound statement is executable
(`Bound.Statement.Binds.executable`), every move of a session makes at most the calls of the nodes of one call of the
program (`Session.Run.accounts`), and so every call made in a session is one of a node (`Session.Run.calls`).
-/

namespace Cadence

variable {σ : Type}

/-! ## Calls in the journal -/

/-- The calls that were made, in order. -/
def World.calls (w : World σ) : List (Made σ) :=
  w.journal.toList.filterMap fun
    | .called c arguments => some (c, arguments)
    | .waited _ => none

theorem World.calls_of_journalWith {w w' : World σ} {made : List (Made σ)} (h : w'.journal = w.journalWith made) :
    w'.calls = w.calls ++ made := by
  rw [calls, h, journalWith, Array.toList_append, List.filterMap_append, List.filterMap_map]
  congr 1
  exact List.filterMap_some

theorem World.calls_wait (w : World σ) (seconds : Binary64) : (w.wait seconds).calls = w.calls := by
  simp [calls, wait]

/-- A call that was made passes a number of values that the callable accepts. -/
def Made.Accepted (m : Made σ) : Prop :=
  m.1.signature.accepts m.2.length = true

theorem Bound.Call.Registered.accepted {r : Registry σ} {node : Bound.Call σ} (h : node.Registered r) {m : Made σ}
    (hm : node.Invoked m) : Made.Accepted m := by
  rw [Made.Accepted, hm.callable, hm.length]
  exact h.accepts

/-! ## Executable statements -/

/-- The calls of a bound statement: its action, and those in the places of items. -/
def Bound.Statement.calls (s : Bound.Statement σ Bound.Passes) : List (Bound.Call σ) :=
  s.action :: s.schedule.toItem.intervalCalls

def Bound.Statement.nodes (s : Bound.Statement σ Bound.Passes) : List (Bound.Call σ) :=
  s.calls.flatMap Bound.Call.nodes

/-- Nothing stands in the way of performing a statement: every schedule, at any depth, has an item and a pass, the
action is registered among the actions, and all other calls are registered among the functions. -/
structure Bound.Statement.Executable (actions functions : Registry σ) (s : Bound.Statement σ Bound.Passes) :
    Prop where
  schedules : ∀ t, s.schedule.Within t → t.items ≠ [] ∧ (t.passes = .forever ∨ ∃ n, t.passes = .times n ∧ 1 ≤ n)
  action : s.action.Registered actions
  arguments : ∀ node ∈ Bound.Arguments.nodes s.action.arguments, node.Registered functions
  intervals : ∀ c ∈ s.schedule.toItem.intervalCalls, ∀ node ∈ c.nodes, node.Registered functions

variable {actions functions : Registry σ}

theorem Bound.Statement.Binds.executable {source : Cadence.Statement} {s : Bound.Statement σ Bound.Passes}
    (h : s.Binds actions functions source) : s.Executable actions functions where
  schedules := by
    intro t ht
    obtain ⟨hitems, hpasses, _⟩ := ht.solid h.solid
    refine ⟨hitems, ?_⟩
    cases hp : t.passes with
    | forever => exact .inl rfl
    | times n =>
      rw [hp] at hpasses
      have hn : n.toNat ≠ 0 := fun h => hpasses (UInt64.toNat_inj.1 h)
      exact .inr ⟨n, rfl, UInt64.le_iff_toNat_le.2 (Nat.one_le_iff_ne_zero.2 hn)⟩
  action := (Call.registered_of_bound h.action).1
  arguments := (Call.registered_of_bound h.action).2
  intervals := by
    intro c hc
    obtain ⟨node, _, hnode⟩ := h.exists_of_mem_intervalCalls hc
    exact Call.registered_nodes_of_bound hnode

theorem Bound.Statement.Executable.accepted {s : Bound.Statement σ Bound.Passes} (h : s.Executable actions functions)
    {node : Bound.Call σ} (hnode : node ∈ s.nodes) {m : Made σ} (hm : node.Invoked m) : Made.Accepted m := by
  obtain ⟨c, hc, hnode⟩ := List.mem_flatMap.1 hnode
  rcases List.mem_cons.1 hc with rfl | hc
  · rcases List.mem_append.1 hnode with hnode | hnode
    · exact (h.arguments node hnode).accepted hm
    · rw [List.mem_singleton.1 hnode] at hm
      exact h.action.accepted hm
  · exact (h.intervals c hc node hnode).accepted hm

/-! ## Sessions -/

/-- A bound program in use. A cursor that was pulled is kept also as it was before, as if a copy of it had been made. -/
structure Session (σ : Type) where
  cursors : List (Cursor σ)
  world : World σ

inductive Move (σ : Type)
  | start (schedule : Bound.Schedule σ Bound.Passes)
  | pull (cursor : Cursor σ)
  | fire (statement : Bound.Statement σ Bound.Passes)
  | wait (seconds : Binary64)
  /-- The state of the host changes by itself. -/
  | change (state : σ)

namespace Session

/-- A move, with the error that it comes to, if it is one. -/
inductive Step (bound : List (Bound.Statement σ Bound.Passes)) :
    Session σ → Move σ → Option Error → Session σ → Prop
  | start {x : Session σ} {s : Bound.Statement σ Bound.Passes} {t : Bound.Schedule σ Bound.Passes} :
    s ∈ bound → s.schedule.Within t → Step bound x (.start t) none ⟨Cursor.start t :: x.cursors, x.world⟩
  | pull {x : Session σ} {c : Cursor σ} : c ∈ x.cursors →
    Step bound x (.pull c) (failure? (c.next x.world).1.1) ⟨(c.next x.world).1.2 :: x.cursors, (c.next x.world).2⟩
  | fire {x : Session σ} {s : Bound.Statement σ Bound.Passes} : s ∈ bound →
    Step bound x (.fire s) (failure? (s.action.invoke x.world).1) ⟨x.cursors, (s.action.invoke x.world).2⟩
  | wait {x : Session σ} {seconds : Binary64} : Step bound x (.wait seconds) none ⟨x.cursors, x.world.wait seconds⟩
  | change {x : Session σ} {state : σ} :
    Step bound x (.change state) none ⟨x.cursors, { x.world with state := state }⟩

/-- The sessions that begin in a world. -/
inductive Run (bound : List (Bound.Statement σ Bound.Passes)) (w : World σ) : Session σ → Prop
  | start : Run bound w ⟨[], w⟩
  | step {x y : Session σ} {move : Move σ} {failure : Option Error} :
    Run bound w x → Step bound x move failure y → Run bound w y

/-- The calls that a move makes in a world, and the error that it comes to. -/
inductive Accounts (bound : List (Bound.Statement σ Bound.Passes)) (w : World σ) :
    Move σ → Option Error → List (Made σ) → Prop
  | quiet {move : Move σ} : (∀ s, move ≠ .fire s) → Accounts bound w move none []
  /-- A finished cursor was pulled. -/
  | exhausted {c : Cursor σ} : c.finished = true → Accounts bound w (.pull c) (some .exhausted) []
  | fired {s : Bound.Statement σ Bound.Passes} {made : List (Made σ)} : s ∈ bound →
    Bound.Ran s.action.nodes made (s.action.invoke w).1 →
    Accounts bound w (.fire s) (failure? (s.action.invoke w).1) made
  | pulled {cursor : Cursor σ} {s : Bound.Statement σ Bound.Passes} {c : Bound.Call σ} {made : List (Made σ)} :
    s ∈ bound → c ∈ s.schedule.toItem.intervalCalls → Bound.Ran c.nodes made (c.invoke w).1 →
    Accounts bound w (.pull cursor) (failure? (c.invoke w).1) made
  /-- A call for an interval gave a value that is not one. -/
  | refused {cursor : Cursor σ} {s : Bound.Statement σ Bound.Passes} {c : Bound.Call σ} {made : List (Made σ)}
    {value : Value} {e : Error} :
    s ∈ bound → c ∈ s.schedule.toItem.intervalCalls → (c.invoke w).1 = .ok value →
    List.Forall₂ Bound.Call.Invoked c.nodes made → c.interval value = .error e →
    Accounts bound w (.pull cursor) (some e) made

variable {bound : List (Bound.Statement σ Bound.Passes)} {w : World σ} {x y : Session σ} {move : Move σ}
  {failure : Option Error}

theorem Accounts.exists_invoked {made : List (Made σ)} (h : Accounts bound w move failure made) {m : Made σ}
    (hm : m ∈ made) : ∃ s ∈ bound, ∃ node ∈ s.nodes, node.Invoked m := by
  cases h with
  | quiet _ => cases hm
  | exhausted _ => cases hm
  | @fired s made hs hran =>
    obtain ⟨node, hnode, hinvoked⟩ := hran.exists_invoked hm
    exact ⟨s, hs, node, List.mem_flatMap.2 ⟨s.action, List.mem_cons_self, hnode⟩, hinvoked⟩
  | @pulled _ s c made hs hc hran =>
    obtain ⟨node, hnode, hinvoked⟩ := hran.exists_invoked hm
    exact ⟨s, hs, node, List.mem_flatMap.2 ⟨c, List.mem_cons_of_mem _ hc, hnode⟩, hinvoked⟩
  | @refused _ s c made value e hs hc _ hmade _ =>
    obtain ⟨node, hnode, hinvoked⟩ := Bound.Call.exists_invoked_of_forall₂ hmade hm
    exact ⟨s, hs, node, List.mem_flatMap.2 ⟨c, List.mem_cons_of_mem _ hc, hnode⟩, hinvoked⟩

/-- Every cursor of a session goes through a schedule of the program. -/
theorem Run.cursors (h : Run bound w x) :
    ∀ c ∈ x.cursors, ∃ s ∈ bound, ∃ t, s.schedule.Within t ∧ c.Used t := by
  induction h with
  | start => simp
  | @step x y move failure _ hstep ih =>
    cases hstep with
    | @start s t hs ht =>
      intro c hc
      rcases List.mem_cons.1 hc with rfl | hc
      · exact ⟨s, hs, t, ht, .start⟩
      · exact ih c hc
    | @pull c' hc' =>
      intro c hc
      rcases List.mem_cons.1 hc with rfl | hc
      · obtain ⟨s, hs, t, ht, hused⟩ := ih c' hc'
        exact ⟨s, hs, t, ht, .next x.world hused⟩
      · exact ih c hc
    | fire _ => exact ih
    | wait => exact ih
    | change => exact ih

private theorem accounts_pull {s : Bound.Statement σ Bound.Passes} (hs : s ∈ bound) (hsolid : s.schedule.Solid)
    {t : Bound.Schedule σ Bound.Passes} (ht : s.schedule.Within t) {c : Cursor σ} (hc : c.Used t) (w : World σ) :
    ∃ made, (c.next w).2.calls = w.calls ++ made ∧ Accounts bound w (.pull c) (failure? (c.next w).1.1) made := by
  have hquiet : Accounts bound w (.pull c) none [] := by
    refine .quiet ?_
    rintro _ ⟨⟩
  rcases hc.next_cases (ht.solid hsolid) w with ⟨hfinished, hnext⟩ | ⟨c', hnext⟩ | ⟨leaf, hleaf, c', hnext⟩
  · rw [hnext]
    exact ⟨[], (List.append_nil _).symm, .exhausted hfinished⟩
  · rw [hnext]
    exact ⟨[], (List.append_nil _).symm, hquiet⟩
  · rw [hnext]
    cases leaf with
    | interval seconds => exact ⟨[], (List.append_nil _).symm, hquiet⟩
    | call call =>
      have hcall := ht.mem_intervalCalls (Bound.Item.mem_intervalCalls hleaf)
      obtain ⟨made, hjournal, hran⟩ := call.evaluates_invoke w
      rw [Leaf.pull, Host.bind_apply]
      have hpulled : Accounts bound w (.pull c) (failure? (call.invoke w).1) made := .pulled hs hcall hran
      rcases hinvoke : call.invoke w with ⟨e | value, w'⟩ <;> rw [hinvoke] at hjournal hran hpulled
      · exact ⟨made, World.calls_of_journalWith hjournal, hpulled⟩
      · refine ⟨made, World.calls_of_journalWith hjournal, ?_⟩
        dsimp only [Host.ofResult]
        cases hinterval : call.interval value with
        | ok seconds => exact hpulled
        | error e => exact .refused hs hcall (congrArg Prod.fst hinvoke) hran.invoked hinterval

/-- A move makes the calls of the nodes of at most one call of the program. Its error is the own failure of the callable
that was called last, or that of a value that is not an interval, or comes from pulling a finished cursor. -/
theorem Run.accounts (hsolid : ∀ s ∈ bound, s.schedule.Solid) (h : Run bound w x) (hstep : Step bound x move failure y) :
    ∃ made, y.world.calls = x.world.calls ++ made ∧ Accounts bound x.world move failure made := by
  cases hstep with
  | start _ _ =>
    refine ⟨[], (List.append_nil _).symm, .quiet ?_⟩
    rintro _ ⟨⟩
  | @pull c hc =>
    obtain ⟨s, hs, t, ht, hused⟩ := h.cursors c hc
    exact accounts_pull hs (hsolid s hs) ht hused x.world
  | @fire s hs =>
    obtain ⟨made, hjournal, hran⟩ := s.action.evaluates_invoke x.world
    exact ⟨made, World.calls_of_journalWith hjournal, .fired hs hran⟩
  | @wait seconds =>
    refine ⟨[], ?_, .quiet ?_⟩
    · rw [World.calls_wait, List.append_nil]
    · rintro _ ⟨⟩
  | change =>
    refine ⟨[], (List.append_nil _).symm, .quiet ?_⟩
    rintro _ ⟨⟩

/-- Every call made in a session is one of a node of the program. -/
theorem Run.calls (hsolid : ∀ s ∈ bound, s.schedule.Solid) (h : Run bound w x) :
    ∃ made, x.world.calls = w.calls ++ made ∧ ∀ m ∈ made, ∃ s ∈ bound, ∃ node ∈ s.nodes, node.Invoked m := by
  induction h with
  | start =>
    refine ⟨[], (List.append_nil _).symm, ?_⟩
    simp
  | step hrun hstep ih =>
    obtain ⟨made, hcalls, hmade⟩ := ih
    obtain ⟨more, hmore, haccounts⟩ := hrun.accounts hsolid hstep
    refine ⟨made ++ more, ?_, ?_⟩
    · rw [hmore, hcalls, List.append_assoc]
    · intro m hm
      rcases List.mem_append.1 hm with hm | hm
      · exact hmade m hm
      · exact haccounts.exists_invoked hm

end Session

/-! ## Bound programs -/

/-- Binding a program with success makes the calls of the nodes of its calls for numbers of passes, and no others. -/
theorem exists_asked_of_bind {program : List Statement} {w₀ w₁ : World σ}
    {bound : List (Bound.Statement σ Bound.Passes)}
    (h : Statements.bind actions functions program w₀ = (.ok bound, w₁)) :
    ∃ asked made, (program.flatMap Statement.passesCalls).mapM (Call.bound functions functions) = .ok asked ∧
      w₁.journal = w₀.journalWith made ∧ List.Forall₂ Bound.Call.Invoked (asked.flatMap Bound.Call.nodes) made := by
  cases hlooked : program.mapM (Statement.bound actions functions) with
  | error e =>
    rw [Statements.bind_of_error hlooked] at h
    cases h
  | ok looked =>
    rw [Statements.bind_of_ok hlooked, (Bound.Statements.asks looked).eq] at h
    obtain ⟨counts, v, hasked, h⟩ := Host.bind_eq_ok_iff.1 h
    cases congrArg Prod.snd h
    obtain ⟨made, hjournal, hmade⟩ := Bound.exists_made_of_mapM_ask hasked
    exact ⟨_, made, mapM_passesCalls hlooked, hjournal, hmade⟩

/-- A bound program is executable, and whatever is called, when it is bound and in all that can happen to it later, is
called for a node of the program, with as many values as the node has arguments, a number that the callable accepts. The
calls for numbers of passes are made when the program is bound, and a later error is accounted for by the move that it
came from. -/
theorem executable_of_bind {program : List Statement} {w₀ w₁ : World σ}
    {bound : List (Bound.Statement σ Bound.Passes)}
    (hbind : Statements.bind actions functions program w₀ = (.ok bound, w₁)) :
    (∀ s ∈ bound, s.Executable actions functions) ∧
      (∃ asked made, (program.flatMap Statement.passesCalls).mapM (Call.bound functions functions) = .ok asked ∧
        (∀ node ∈ asked.flatMap Bound.Call.nodes, node.Registered functions) ∧ w₁.calls = w₀.calls ++ made ∧
        List.Forall₂ Bound.Call.Invoked (asked.flatMap Bound.Call.nodes) made ∧ ∀ m ∈ made, Made.Accepted m) ∧
      ∀ w x, Session.Run bound w x →
        (∃ made, x.world.calls = w.calls ++ made ∧
          ∀ m ∈ made, Made.Accepted m ∧ ∃ s ∈ bound, ∃ node ∈ s.nodes, node.Invoked m) ∧
        ∀ move failure y, Session.Step bound x move failure y →
          ∃ made, y.world.calls = x.world.calls ++ made ∧ Session.Accounts bound x.world move failure made := by
  have hexecutable : ∀ s ∈ bound, s.Executable actions functions := by
    intro s hs
    obtain ⟨source, _, hbinds⟩ := exists_binds_of_bind hbind hs
    exact hbinds.executable
  have hsolid : ∀ s ∈ bound, s.schedule.Solid := by
    intro s hs
    obtain ⟨source, _, hbinds⟩ := exists_binds_of_bind hbind hs
    exact hbinds.solid
  refine ⟨hexecutable, ?_, ?_⟩
  · obtain ⟨asked, made, hasked, hjournal, hmade⟩ := exists_asked_of_bind hbind
    have hregistered : ∀ node ∈ asked.flatMap Bound.Call.nodes, node.Registered functions := by
      intro node hnode
      obtain ⟨c, hc, hnode⟩ := List.mem_flatMap.1 hnode
      obtain ⟨source, _, hsource⟩ := mem_of_mapM_eq_ok hasked hc
      exact Call.registered_nodes_of_bound hsource node hnode
    refine ⟨asked, made, hasked, hregistered, World.calls_of_journalWith hjournal, hmade, ?_⟩
    intro m hm
    obtain ⟨node, hnode, hinvoked⟩ := Bound.Call.exists_invoked_of_forall₂ hmade hm
    exact (hregistered node hnode).accepted hinvoked
  · intro w x hrun
    refine ⟨?_, fun move failure y hstep => hrun.accounts hsolid hstep⟩
    obtain ⟨made, hcalls, hmade⟩ := hrun.calls hsolid
    refine ⟨made, hcalls, ?_⟩
    intro m hm
    obtain ⟨s, hs, node, hnode, hinvoked⟩ := hmade m hm
    exact ⟨(hexecutable s hs).accepted hnode hinvoked, s, hs, node, hnode, hinvoked⟩

theorem executable_of_bind_tick :
    Statements.bind Sample.actions Sample.functions [Sample.ticking (.times 2)] (.fresh 0)
        = (.ok [Sample.tickingTwice], .fresh 0) ∧
      Sample.tickingTwice.Executable Sample.actions Sample.functions ∧
      ∀ w x, Session.Run [Sample.tickingTwice] w x → ∃ made, x.world.calls = w.calls ++ made ∧
        ∀ m ∈ made, Made.Accepted m ∧ ∃ s ∈ [Sample.tickingTwice], ∃ node ∈ s.nodes, node.Invoked m := by
  have hbind : Statements.bind Sample.actions Sample.functions [Sample.ticking (.times 2)] (.fresh 0)
      = (.ok [Sample.tickingTwice], .fresh 0) := rfl
  obtain ⟨hexecutable, _, hsession⟩ := executable_of_bind hbind
  exact ⟨hbind, hexecutable _ (List.mem_singleton_self _), fun w x hrun => (hsession w x hrun).1⟩

end Cadence
