import Cadence.Proofs.Bound.Confinement
import Cadence.Proofs.Run.LifeCycle
import Cadence.Proofs.Run.Searching
import Cadence.Proofs.Run.Session
import Mathlib.Logic.Function.Basic

/-!
# Statements that do not share state do not affect one another

Statements are in use side by side: cursors over them are started and pulled, and their actions are called, in any order
(`Operation.performAll`). If all that a statement calls is confined to a component of the host's state of its own, an
operation on a statement stays in its component (`Operation.staysIn_perform`), and so everything that concerns a
statement is as if the others had not been in use (`Operation.performAll_own`).
-/

namespace Cadence

/-! ## Operations -/

section Operations

variable {σ κ α ι : Type}

/-- The cursors over a statement, in the order in which they were started. -/
structure Cursors (σ : Type) where
  intervals : List (Cursor σ)
  pairs : List (Pairs σ)

def Cursors.none : Cursors σ :=
  ⟨[], []⟩

/-- What is done with a statement. -/
inductive Operation
  | startIntervals
  | startPairs
  /-- A cursor over intervals is pulled, which is given by its place among those that were started. -/
  | pullInterval (cursor : Nat) (way : Way)
  | pullPair (cursor : Nat) (way : Way)
  /-- The action is called. -/
  | fire

/-- What an operation comes to. A cursor that was never started reports nothing. -/
inductive Answer (σ : Type)
  | started
  | interval (report : Option (Report Binary64))
  | pair (report : Option (Report (Binary64 × Bound.Call σ)))
  | fired (result : Except Error Value)

/-- Pulls one of several sources. -/
def Source.pullAt (S : Source σ κ α) (place : Nat) (way : Way) (sources : List κ) :
    StateM (World σ) (Option (Report α) × List κ) :=
  match sources[place]? with
  | none => pure (none, sources)
  | some c => do
    let (report, c) ← S.pull c way
    return (some report, sources.set place c)

namespace Operation

def perform (s : Bound.Statement σ Bound.Passes) :
    Operation → Cursors σ → StateM (World σ) (Answer σ × Cursors σ)
  | startIntervals, x => pure (.started, { x with intervals := x.intervals ++ [Cursor.start s.schedule] })
  | startPairs, x => pure (.started, { x with pairs := x.pairs ++ [Pairs.start s] })
  | pullInterval place way, x => do
    let (report, intervals) ← Cursor.source.pullAt place way x.intervals
    return (.interval report, { x with intervals := intervals })
  | pullPair place way, x => do
    let (report, pairs) ← Pairs.source.pullAt place way x.pairs
    return (.pair report, { x with pairs := pairs })
  | fire, x => do
    let result ← s.action.invoke.run
    return (.fired result, x)

/-- Operations on several statements, one after the other. -/
def performAll [DecidableEq ι] (statements : ι → Bound.Statement σ Bound.Passes) :
    List (ι × Operation) → (ι → Cursors σ) → StateM (World σ) (List (ι × Answer σ) × (ι → Cursors σ))
  | [], x => pure ([], x)
  | (i, operation) :: rest, x => do
    let (answer, own) ← operation.perform (statements i) (x i)
    let (answers, x) ← performAll statements rest (Function.update x i own)
    return ((i, answer) :: answers, x)

theorem performAll_cons [DecidableEq ι] {statements : ι → Bound.Statement σ Bound.Passes} {i : ι}
    {operation : Operation} {x : ι → Cursors σ} {w w' : World σ} {answer : Answer σ} {own : Cursors σ}
    (h : operation.perform (statements i) (x i) w = ((answer, own), w')) (rest : List (ι × Operation)) :
    performAll statements ((i, operation) :: rest) x w =
      (((i, answer) :: (performAll statements rest (Function.update x i own) w').1.1,
        (performAll statements rest (Function.update x i own) w').1.2),
        (performAll statements rest (Function.update x i own) w').2) := by
  rw [performAll, state_bind_apply, h]
  rfl

end Operation

/-- Cursors over a statement after any number of pulls. -/
structure Cursors.Used (s : Bound.Statement σ Bound.Passes) (x : Cursors σ) : Prop where
  intervals : ∀ c ∈ x.intervals, c.Used s.schedule
  pairs : ∀ p ∈ x.pairs, p.cursor.Used s.schedule

theorem Cursors.used_none (s : Bound.Statement σ Bound.Passes) : (none : Cursors σ).Used s := by
  constructor <;> simp [none]

variable {s : Bound.Statement σ Bound.Passes}

theorem Cursor.Used.next? {t : Bound.Schedule σ Bound.Passes} {c : Cursor σ} (h : c.Used t) (w : World σ) :
    (c.next? w).1.2.Used t := by
  cases hfinished : c.finished with
  | true =>
    rw [next?_of_finished hfinished]
    exact h
  | false =>
    rw [next?_of_not_finished hfinished]
    exact .next w h

theorem Cursor.Used.pull {t : Bound.Schedule σ Bound.Passes} {c : Cursor σ} (h : c.Used t) (way : Way)
    (w : World σ) : (Cursor.source.pull c way w).1.2.Used t := by
  cases way with
  | next => exact .next w h
  | next? => exact h.next? w

theorem Pairs.used_pull {t : Bound.Schedule σ Bound.Passes} {p : Pairs σ} (h : p.cursor.Used t) (way : Way)
    (w : World σ) : (Pairs.source.pull p way w).1.2.cursor.Used t := by
  cases way with
  | next => exact .next w h
  | next? => exact h.next? w

/-- What holds of all sources, and of a source after every pull of it, holds of all of them after one is pulled. -/
theorem Source.forall_pullAt {S : Source σ κ α} {P : κ → Prop} {sources : List κ} (h : ∀ c ∈ sources, P c)
    (hpull : ∀ c, P c → ∀ way w, P (S.pull c way w).1.2) (place : Nat) (way : Way) (w : World σ) :
    ∀ c ∈ (S.pullAt place way sources w).1.2, P c := by
  intro c hc
  rw [pullAt] at hc
  cases hplace : sources[place]? with
  | none =>
    rw [hplace] at hc
    exact h c hc
  | some c' =>
    rw [hplace] at hc
    rcases List.mem_or_eq_of_mem_set hc with hc | rfl
    · exact h c hc
    · exact hpull c' (h c' (List.mem_of_getElem? hplace)) way w

theorem Cursors.Used.perform {x : Cursors σ} (h : x.Used s) (operation : Operation) (w : World σ) :
    (operation.perform s x w).1.2.Used s := by
  obtain ⟨hintervals, hpairs⟩ := h
  cases operation with
  | startIntervals => exact ⟨List.forall_mem_append.2 ⟨hintervals, by simpa using .start⟩, hpairs⟩
  | startPairs => exact ⟨hintervals, List.forall_mem_append.2 ⟨hpairs, by simpa using .start⟩⟩
  | pullInterval place way =>
    exact ⟨Source.forall_pullAt hintervals (fun _ hc way w => hc.pull way w) place way w, hpairs⟩
  | pullPair place way =>
    exact ⟨hintervals, Source.forall_pullAt hpairs (fun _ hp way w => Pairs.used_pull hp way w) place way w⟩
  | fire => exact ⟨hintervals, hpairs⟩

end Operations

/-! ## Operations on one statement -/

variable {ι : Type} {τ : ι → Type} {κ α : Type} {i : ι}

/-- A statement all of whose calls are confined to a component of the state. -/
def Bound.Statement.Confined (i : ι) (s : Bound.Statement (∀ j, τ j) Bound.Passes) : Prop :=
  ∀ node ∈ s.nodes, node.callable.Confined i

theorem Bound.Statement.Confined.of_mem_calls {s : Bound.Statement (∀ j, τ j) Bound.Passes} (h : s.Confined i)
    {c : Bound.Call (∀ j, τ j)} (hc : c ∈ s.calls) : c.Confined i :=
  fun node hnode => h node (List.mem_flatMap.2 ⟨c, hc, hnode⟩)

theorem Leaf.staysIn_pull {leaf : Leaf (∀ j, τ j)} (h : ∀ c, leaf = .call c → c.Confined i) :
    StaysIn i leaf.pull.run :=
  StaysIn.closed.pull fun c hc node hnode values => (h c hc node hnode).staysIn_call node.name values

section Cursor

variable {t : Bound.Schedule (∀ j, τ j) Bound.Passes} (ht : t.Solid)
  (hconfined : ∀ c ∈ t.toItem.intervalCalls, c.Confined i)
include ht hconfined

theorem Cursor.Used.staysIn_next {c : Cursor (∀ j, τ j)} (h : c.Used t) : StaysIn i c.next := by
  rcases h.cases ht with hfinished | ⟨k, hk⟩
  · have hnext : c.next = pure (.error .exhausted, c) := funext (next_of_finished hfinished)
    rw [hnext]
    exact StaysIn.pure _
  · have hstands := hk.stands ht
    have hsteps : stepsLeft c.frames ≤ c.reach := hstands.reach ▸ stepsLeft_le hstands.stacked
    have hwalk : StaysIn i (walk c.reach c.frames).run := by
      rcases walk_cases hstands.stacked hsteps with ⟨_, hwalk⟩ | ⟨leaf, frames', hleft, _, hwalk⟩
      · rw [hwalk]
        exact StaysIn.host_pure _
      · -- the walk comes to a leaf of the schedule
        have hleaf := Stream'.Seq.get?_mem (get?_of_drop_eq_cons (hstands.left.symm.trans hleft))
        have hpull : StaysIn i leaf.pull.run := by
          refine Leaf.staysIn_pull ?_
          rintro call rfl
          exact hconfined call (Bound.Item.mem_intervalCalls hleaf)
        rw [hwalk]
        exact hpull.host_bind fun seconds => StaysIn.host_pure (some seconds, frames')
    rw [next_of_not_finished hstands.unfinished]
    exact hwalk.map c.settle

theorem Cursor.Used.staysIn_next? {c : Cursor (∀ j, τ j)} (h : c.Used t) : StaysIn i c.next? := by
  rw [Cursor.next?]
  split
  · exact StaysIn.pure _
  · exact (h.staysIn_next ht hconfined).map _

theorem Cursor.Used.staysIn_pull {c : Cursor (∀ j, τ j)} (h : c.Used t) (way : Way) :
    StaysIn i (Cursor.source.pull c way) := by
  cases way with
  | next => exact (h.staysIn_next ht hconfined).map _
  | next? => exact (h.staysIn_next? ht hconfined).map _

theorem Pairs.staysIn_pull {p : Pairs (∀ j, τ j)} (h : p.cursor.Used t) (way : Way) :
    StaysIn i (Pairs.source.pull p way) := by
  cases way with
  | next => exact ((h.staysIn_next ht hconfined).map _).map _
  | next? => exact ((h.staysIn_next? ht hconfined).map _).map _

end Cursor

theorem Source.staysIn_pullAt {S : Source (∀ j, τ j) κ α} {sources : List κ}
    (h : ∀ c ∈ sources, ∀ way, StaysIn i (S.pull c way)) (place : Nat) (way : Way) :
    StaysIn i (S.pullAt place way sources) := by
  rw [pullAt]
  cases hplace : sources[place]? with
  | none => exact StaysIn.pure _
  | some c => exact (h c (List.mem_of_getElem? hplace) way).map _

theorem Operation.staysIn_perform {s : Bound.Statement (∀ j, τ j) Bound.Passes} (hs : s.IsBound) (h : s.Confined i)
    {x : Cursors (∀ j, τ j)} (hx : x.Used s) (operation : Operation) : StaysIn i (operation.perform s x) := by
  have hintervals : ∀ c ∈ s.schedule.toItem.intervalCalls, c.Confined i :=
    fun c hc => h.of_mem_calls (List.mem_cons_of_mem _ hc)
  cases operation with
  | startIntervals => exact StaysIn.pure _
  | startPairs => exact StaysIn.pure _
  | pullInterval place way =>
    have hpull := Source.staysIn_pullAt (S := Cursor.source) fun c hc way =>
      (hx.intervals c hc).staysIn_pull hs.solid hintervals way
    exact (hpull place way).map _
  | pullPair place way =>
    have hpull := Source.staysIn_pullAt (S := Pairs.source) fun p hp way =>
      Pairs.staysIn_pull hs.solid hintervals (hx.pairs p hp) way
    exact (hpull place way).map _
  | fire => exact (h.of_mem_calls List.mem_cons_self).staysIn_invoke.map _

/-! ## Operations on several statements -/

section Several

variable [DecidableEq ι] {statements : ι → Bound.Statement (∀ j, τ j) Bound.Passes} {x y : ι → Cursors (∀ j, τ j)}
  {w v : World (∀ j, τ j)}

theorem Cursors.used_update (hx : ∀ j, (x j).Used (statements j)) {own : Cursors (∀ j, τ j)}
    (hown : own.Used (statements i)) : ∀ j, (Function.update x i own j).Used (statements j) := by
  intro j
  by_cases hj : j = i
  · subst hj
    rw [Function.update_self]
    exact hown
  · rw [Function.update_of_ne hj]
    exact hx j

theorem Cursors.used_performAll (operations : List (ι × Operation)) (hx : ∀ j, (x j).Used (statements j))
    (w : World (∀ j, τ j)) :
    ∀ j, ((Operation.performAll statements operations x w).1.2 j).Used (statements j) := by
  induction operations generalizing x w with
  | nil => exact hx
  | cons first rest ih =>
    obtain ⟨k, operation⟩ := first
    exact ih (used_update hx ((hx k).perform operation w)) _

/-- What is answered to one statement does not depend on what is done with the others, nor on their components of the
state; and its cursors and its component are afterwards as if nothing had been done with the others. -/
theorem Operation.performAll_own (hbound : ∀ j, (statements j).IsBound)
    (hconfined : ∀ j, (statements j).Confined j) (operations : List (ι × Operation))
    (hx : ∀ j, (x j).Used (statements j)) (hxy : x i = y i) (hwv : w.state i = v.state i) :
    ((performAll statements operations x w).1.1.filter fun a => a.1 = i)
        = (performAll statements (operations.filter fun o => o.1 = i) y v).1.1 ∧
      (performAll statements operations x w).1.2 i
        = (performAll statements (operations.filter fun o => o.1 = i) y v).1.2 i ∧
      (performAll statements operations x w).2.state i
        = (performAll statements (operations.filter fun o => o.1 = i) y v).2.state i := by
  induction operations generalizing x y w v with
  | nil => exact ⟨rfl, hxy, hwv⟩
  | cons first rest ih =>
    obtain ⟨j, operation⟩ := first
    have hstays := staysIn_perform (hbound j) (hconfined j) (hx j) operation
    have hused := (hx j).perform operation w
    rcases hleft : operation.perform (statements j) (x j) w with ⟨⟨answer, own⟩, w'⟩
    rw [hleft] at hused
    have hx' := Cursors.used_update hx hused
    by_cases hj : j = i
    · -- both sides do it, on the same cursors and the same component
      subst hj
      obtain ⟨hanswer, hstate⟩ := hstays.reads w v hwv
      rcases hright : operation.perform (statements j) (y j) v with ⟨⟨answer', own'⟩, v'⟩
      rw [hxy, hright, ← hxy, hleft] at hanswer hstate
      cases hanswer
      have hupdate : Function.update x j own j = Function.update y j own j := by simp
      obtain ⟨hanswers, hcursors, hstates⟩ := ih hx' hupdate hstate
      rw [List.filter_cons_of_pos (by simp), performAll_cons hleft, performAll_cons hright,
        List.filter_cons_of_pos (by simp)]
      exact ⟨congrArg _ hanswers, hcursors, hstates⟩
    · -- the other side leaves it out, and it leaves the component alone
      have hstate := hstays.writes w i (Ne.symm hj)
      rw [hleft] at hstate
      have hupdate : Function.update x j own i = y i := by rw [Function.update_of_ne (Ne.symm hj), hxy]
      rw [List.filter_cons_of_neg (by simpa using hj), performAll_cons hleft,
        List.filter_cons_of_neg (by simpa using hj)]
      exact ih hx' hupdate (hstate.trans hwv)

/-- Statements of bound programs are in use side by side, and all that each of them calls is confined to a component of
the host's state of its own. Then the answers to one of them are those that it gets when only the operations on it are
done, in the same order; it has the same cursors afterwards, and its component is the same. So is all that is answered
to it later. -/
theorem performAll_eq_alone (hbound : ∀ j, (statements j).IsBound) (hconfined : ∀ j, (statements j).Confined j)
    (operations : List (ι × Operation)) (w : World (∀ j, τ j)) (i : ι) :
    ∃ answers x w' x' v',
      Operation.performAll statements operations (fun _ => .none) w = ((answers, x), w') ∧
      Operation.performAll statements (operations.filter fun o => o.1 = i) (fun _ => .none) w
        = ((answers.filter fun a => a.1 = i, x'), v') ∧
      x i = x' i ∧ w'.state i = v'.state i ∧
      ∀ more, ((Operation.performAll statements more x w').1.1.filter fun a => a.1 = i)
        = (Operation.performAll statements (more.filter fun o => o.1 = i) x' v').1.1 := by
  have hstart : ∀ j, (Cursors.none : Cursors (∀ j, τ j)).Used (statements j) := fun j => Cursors.used_none _
  obtain ⟨hanswers, hcursors, hstate⟩ :=
    Operation.performAll_own (i := i) (y := fun _ => .none) (v := w) hbound hconfined operations hstart rfl rfl
  have hused := Cursors.used_performAll operations hstart w
  refine ⟨_, _, _, _, _, rfl, ?_, hcursors, hstate, fun more => ?_⟩
  · rw [hanswers]
    rfl
  · exact (Operation.performAll_own hbound hconfined more hused hcursors hstate).1

end Several

namespace Sample

/-- Leaves two counts alone. -/
def idle : Callable (Bool → Nat) :=
  ⟨"ping", .positional [], fun _ n => (.returned .null, n)⟩

/-- Gives one of two counts, and adds one to it. -/
def tickOne (b : Bool) : Callable (Bool → Nat) :=
  ⟨"tick", .positional [], fun _ n => (.returned (.int (Int64.ofNat (n b))), Function.update n b (n b + 1))⟩

/-- `ping()@[1, tick()]:2`, bound, where `tick` is on one of two counts. -/
def tickingOne (b : Bool) : Bound.Statement (Bool → Nat) Bound.Passes :=
  ⟨⟨"ping", idle, []⟩, ⟨[.interval (.ofInt 1), .call ⟨"tick", tickOne b, []⟩], .times 2⟩, (ticking (.times 2)).text⟩

/-- Both statements are pulled in turn, and one of them is fired. -/
def bothTicking : List (Bool × Operation) :=
  [(true, .startIntervals), (false, .startPairs), (false, .pullPair 0 .next), (true, .pullInterval 0 .next),
    (false, .pullPair 0 .next?), (true, .pullInterval 0 .next), (false, .fire), (false, .pullPair 0 .next),
    (false, .pullPair 0 .next)]

theorem confined_idle (b : Bool) : Callable.Confined b idle where
  reads _ _ _ h := ⟨rfl, h⟩
  writes _ _ _ _ := rfl

theorem confined_tickOne (b : Bool) : Callable.Confined b (tickOne b) where
  reads := by
    intro arguments s t h
    simp [tickOne, h]
  writes := by
    intro arguments s j hj
    exact Function.update_of_ne hj _ _

end Sample

theorem performAll_eq_alone_ticks :
    (∀ b, (Sample.tickingOne b).IsBound) ∧
      (∀ b, Bound.Statement.Confined b (Sample.tickingOne b)) ∧
      ∃ answers x w' x' v',
        Operation.performAll Sample.tickingOne Sample.bothTicking (fun _ => .none) (.fresh fun _ => 3)
          = ((answers, x), w') ∧
        Operation.performAll Sample.tickingOne (Sample.bothTicking.filter fun o => o.1 = true) (fun _ => .none)
            (.fresh fun _ => 3)
          = ((answers.filter fun a => a.1 = true, x'), v') ∧
        x true = x' true ∧ w'.state true = 4 ∧ v'.state true = 4 ∧ w'.state false = 5 ∧ v'.state false = 3 := by
  have hbound : ∀ b, (Sample.tickingOne b).IsBound := by
    intro b
    have hbind : Statements.bind ⟨.action, [("ping", Sample.idle)]⟩ ⟨.function, [("tick", Sample.tickOne b)]⟩
        [Sample.ticking (.times 2)] (.fresh fun _ => 0) = (.ok [Sample.tickingOne b], .fresh fun _ => 0) := rfl
    exact ⟨_, _, _, _, _, _, hbind, List.mem_singleton_self _⟩
  have hconfined : ∀ b, Bound.Statement.Confined b (Sample.tickingOne b) := by
    intro b node hnode
    have hnode : node ∈ [⟨"ping", Sample.idle, []⟩, ⟨"tick", Sample.tickOne b, []⟩] := hnode
    rcases List.mem_pair.1 hnode with rfl | rfl
    · exact Sample.confined_idle b
    · exact Sample.confined_tickOne b
  obtain ⟨answers, x, w', x', v', hall, halone, hcursors, _, _⟩ :=
    performAll_eq_alone hbound hconfined Sample.bothTicking (.fresh fun _ => 3) true
  have hstates : w'.state true = 4 ∧ v'.state true = 4 ∧ w'.state false = 5 ∧ v'.state false = 3 := by
    have hw' : w' = _ := (congrArg Prod.snd hall).symm
    have hv' : v' = _ := (congrArg Prod.snd halone).symm
    rw [hw', hv']
    decide +kernel
  exact ⟨hbound, hconfined, answers, x, w', x', v', hall, halone, hcursors, hstates⟩

end Cadence
