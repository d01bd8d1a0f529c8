import Cadence.Proofs.Bound.Tree

/-!
# Bound programs mirror what was written

A bound call can be read back: with its names in the place of its callables, it is the call that was written
(`Call.written_of_bound`), and the written form of the one is that of the other (`Bound.Call.text_eq`). The items of a
bound schedule stand one to one for those that were written (`Item.mirrors_of_bind`), except that an empty row of items
has become the interval zero; so a bound program mirrors its source, statement by statement.
-/

namespace Cadence

variable {σ : Type}

/-! ## Reading calls back -/

namespace Bound

mutual

/-- The argument that a bound one was written as. -/
def Argument.written : Argument σ → Cadence.Argument
  | .literal l => .literal l
  | .list items => .list (Arguments.written items)
  | .map entries => .map (Entries.written entries)
  | .call name _ arguments => .call name (Arguments.written arguments)
termination_by structural a => a

def Arguments.written : List (Argument σ) → List Cadence.Argument
  | [] => []
  | a :: rest => a.written :: Arguments.written rest
termination_by structural a => a

def Entries.written : List (Argument σ × Argument σ) → Cadence.Entries
  | [] => []
  | (k, v) :: rest => (k.written, v.written) :: Entries.written rest
termination_by structural a => a

end

/-- The call that a bound one was written as. -/
def Call.written (c : Call σ) : Cadence.Call :=
  ⟨c.name, Arguments.written c.arguments⟩

mutual

/-- Callables leave no trace in the written form. -/
theorem Argument.chars_written : ∀ a : Argument σ, a.written.chars = a.chars
  | .literal _ => rfl
  | .list items => by
    rw [Argument.written, Argument.chars, Cadence.Argument.chars, Arguments.charsOfEach_written items]
  | .map entries => by
    rw [Argument.written, Argument.chars, Cadence.Argument.chars, Entries.charsOfEach_written entries]
  | .call name _ arguments => by
    rw [Argument.written, Argument.chars, Cadence.Argument.chars, Arguments.charsOfEach_written arguments]

theorem Arguments.charsOfEach_written : ∀ arguments : List (Argument σ),
    Cadence.Arguments.charsOfEach (Arguments.written arguments) = Arguments.charsOfEach arguments
  | [] => rfl
  | a :: rest => by
    rw [Arguments.written, Arguments.charsOfEach, Cadence.Arguments.charsOfEach, Argument.chars_written a,
      Arguments.charsOfEach_written rest]

theorem Entries.charsOfEach_written : ∀ entries : List (Argument σ × Argument σ),
    Cadence.Entries.charsOfEach (Entries.written entries) = Entries.charsOfEach entries
  | [] => rfl
  | (k, v) :: rest => by
    rw [Entries.written, Entries.charsOfEach, Cadence.Entries.charsOfEach, Argument.chars_written k,
      Argument.chars_written v, Entries.charsOfEach_written rest]

end

/-- A bound call reads like the call that was written. -/
theorem Call.text_eq (c : Call σ) : c.text = c.written.text :=
  congrArg String.ofList (Argument.chars_written c.toArgument).symm

end Bound

section Lookup

variable {registry functions : Registry σ}

mutual

theorem Argument.written_of_bound : ∀ {a : Argument} {b : Bound.Argument σ}, a.bound functions = .ok b → b.written = a
  | .literal _, _, h => by
    cases h
    rfl
  | .list items, _, h => by
    obtain ⟨items', hi, h⟩ := result_bind_eq_ok_iff.1 h
    cases h
    exact congrArg Argument.list (Arguments.written_of_bound hi)
  | .map entries, _, h => by
    obtain ⟨entries', he, h⟩ := result_bind_eq_ok_iff.1 h
    cases h
    exact congrArg Argument.map (Entries.written_of_bound he)
  | .call name arguments, _, h => by
    obtain ⟨callable, _, h⟩ := result_bind_eq_ok_iff.1 h
    obtain ⟨arguments', ha, h⟩ := result_bind_eq_ok_iff.1 h
    cases h
    exact congrArg (Argument.call name) (Arguments.written_of_bound ha)

theorem Arguments.written_of_bound : ∀ {arguments : List Argument} {b : List (Bound.Argument σ)},
    Arguments.bound functions arguments = .ok b → Bound.Arguments.written b = arguments
  | [], _, h => by
    cases h
    rfl
  | a :: rest, _, h => by
    obtain ⟨a', ha, h⟩ := result_bind_eq_ok_iff.1 h
    obtain ⟨rest', hr, h⟩ := result_bind_eq_ok_iff.1 h
    cases h
    exact congrArg₂ List.cons (Argument.written_of_bound ha) (Arguments.written_of_bound hr)

theorem Entries.written_of_bound : ∀ {entries : Entries} {b : List (Bound.Argument σ × Bound.Argument σ)},
    Entries.bound functions entries = .ok b → Bound.Entries.written b = entries
  | [], _, h => by
    cases h
    rfl
  | (k, v) :: rest, _, h => by
    obtain ⟨k', hk, h⟩ := result_bind_eq_ok_iff.1 h
    obtain ⟨v', hv, h⟩ := result_bind_eq_ok_iff.1 h
    obtain ⟨rest', hr, h⟩ := result_bind_eq_ok_iff.1 h
    cases h
    have hentry : (k'.written, v'.written) = (k, v) :=
      congrArg₂ Prod.mk (Argument.written_of_bound hk) (Argument.written_of_bound hv)
    exact congrArg₂ List.cons hentry (Entries.written_of_bound hr)

end

/-- A call that was looked up is the call that was written, whatever names its callables were declared with. -/
theorem Call.written_of_bound {c : Call} {b : Bound.Call σ} (h : c.bound registry functions = .ok b) :
    b.written = c := by
  obtain ⟨callable, _, h⟩ := result_bind_eq_ok_iff.1 h
  obtain ⟨arguments, ha, h⟩ := result_bind_eq_ok_iff.1 h
  cases h
  exact congrArg (Call.mk c.name) (Arguments.written_of_bound ha)

end Lookup

/-! ## Schedules -/

/-- The numbers of passes that a written one can become: itself, or what a call gave. -/
inductive Bound.Passes.Mirrors : Cadence.Repeat → Bound.Passes → Prop
  | times (n : UInt64) : Mirrors (.times n) (.times n)
  | forever : Mirrors .forever .forever
  | call (c : Cadence.Call) {n : UInt64} : n ≠ 0 → Mirrors (.call c) (.times n)

/-- A bound item stands for a written one. They are of the same kind; calls are the same and read the same; and the
items of a schedule stand for those that were written, one to one and in order, but the interval zero stands for no
item at all. -/
inductive Bound.Item.Mirrors : Cadence.Item → Bound.Item σ Bound.Passes → Prop
  | interval (n : Number) : Mirrors (.interval n) (.interval n.toBinary64)
  | call {c : Cadence.Call} {b : Bound.Call σ} : b.written = c → b.text = c.text → Mirrors (.call c) (.call b)
  | empty {passes : Cadence.Repeat} {passes' : Bound.Passes} : Bound.Passes.Mirrors passes passes' →
    Mirrors (.schedule [] passes) (.schedule [.interval .zero] passes')
  | schedule {items : List Cadence.Item} {items' : List (Bound.Item σ Bound.Passes)} {passes : Cadence.Repeat}
    {passes' : Bound.Passes} : items ≠ [] → List.Forall₂ Mirrors items items' → Bound.Passes.Mirrors passes passes' →
    Mirrors (.schedule items passes) (.schedule items' passes')

/-- A bound statement stands for a written one. -/
structure Bound.Statement.Mirrors (source : Cadence.Statement) (s : Bound.Statement σ Bound.Passes) : Prop where
  action : s.action.written = source.action
  actionText : s.action.text = source.action.text
  schedule : Bound.Item.Mirrors source.schedule.toItem s.schedule.toItem
  source : s.source = source.text

section Binding

variable {actions functions : Registry σ} {sweep : Sweep} {w w' : World σ}

theorem Call.mirrors_of_bound {registry : Registry σ} {c : Call} {b : Bound.Call σ}
    (h : c.bound registry functions = .ok b) : b.written = c ∧ b.text = c.text := by
  have hwritten := Call.written_of_bound h
  refine ⟨hwritten, ?_⟩
  rw [Bound.Call.text_eq, hwritten]

theorem Repeat.mirrors_of_bind {s : Schedule} {passes : Repeat} {b : Bound.Passes}
    (h : passes.bind sweep functions s w = (.ok b, w')) : Bound.Passes.Mirrors passes b := by
  cases passes with
  | times n =>
    obtain ⟨h, _⟩ := Host.ofResult_eq_ok_iff.1 h
    split at h
    · cases h
    · cases h
      exact .times n
  | forever =>
    cases h
    exact .forever
  | call c =>
    obtain ⟨c', v, _, h⟩ := Host.bind_eq_ok_iff.1 h
    cases sweep with
    | checking =>
      cases h
      exact .call c (by decide)
    | asking =>
      obtain ⟨value, u, _, h⟩ := Host.bind_eq_ok_iff.1 h
      obtain ⟨n, u', hn, h⟩ := Host.bind_eq_ok_iff.1 h
      cases h
      exact .call c (Bound.Call.passes_ne_zero (Host.ofResult_eq_ok_iff.1 hn).1)

theorem Items.ne_nil_of_bind {items : List Item} {b : List (Bound.Item σ Bound.Passes)} (hne : items ≠ [])
    (h : Items.bind sweep functions items w = (.ok b, w')) : b ≠ [] := by
  cases items with
  | nil => exact absurd rfl hne
  | cons a rest =>
    obtain ⟨a', v, _, h⟩ := Host.bind_eq_ok_iff.1 h
    obtain ⟨rest', v', _, h⟩ := Host.bind_eq_ok_iff.1 h
    cases h
    exact List.cons_ne_nil a' rest'

/-- The items and the number of passes of a schedule were bound: so the schedule stands for the written one. -/
theorem Bound.Item.mirrors_schedule {items : List Cadence.Item} {items' : List (Bound.Item σ Bound.Passes)}
    {passes : Cadence.Repeat} {passes' : Bound.Passes} (hbind : Items.bind sweep functions items w = (.ok items', w'))
    (hitems : List.Forall₂ Bound.Item.Mirrors items items') (hpasses : Bound.Passes.Mirrors passes passes') :
    Bound.Item.Mirrors (.schedule items passes) (.schedule (Bound.orZero items') passes') := by
  by_cases hne : items = []
  · subst hne
    cases hitems
    exact .empty hpasses
  · have hne' := Items.ne_nil_of_bind hne hbind
    rw [Bound.orZero, if_neg (by simpa using hne')]
    exact .schedule hne hitems hpasses

mutual

theorem Item.mirrors_of_bind : ∀ {a : Item} {b : Bound.Item σ Bound.Passes} {w w' : World σ},
    a.bind sweep functions w = (.ok b, w') → Bound.Item.Mirrors a b
  | .interval n, _, _, _, h => by
    cases h
    exact .interval n
  | .call c, _, _, _, h => by
    obtain ⟨c', v, hc, h⟩ := Host.bind_eq_ok_iff.1 h
    cases h
    obtain ⟨hwritten, htext⟩ := Call.mirrors_of_bound (Host.ofResult_eq_ok_iff.1 hc).1
    exact .call hwritten htext
  | .schedule items passes, _, _, _, h => by
    obtain ⟨items', v, hi, h⟩ := Host.bind_eq_ok_iff.1 h
    obtain ⟨passes', v', hp, h⟩ := Host.bind_eq_ok_iff.1 h
    cases h
    exact Bound.Item.mirrors_schedule hi (Items.mirrors_of_bind hi) (Repeat.mirrors_of_bind hp)

theorem Items.mirrors_of_bind : ∀ {items : List Item} {b : List (Bound.Item σ Bound.Passes)} {w w' : World σ},
    Items.bind sweep functions items w = (.ok b, w') → List.Forall₂ Bound.Item.Mirrors items b
  | [], _, _, _, h => by
    cases h
    exact .nil
  | a :: rest, _, _, _, h => by
    obtain ⟨a', v, ha, h⟩ := Host.bind_eq_ok_iff.1 h
    obtain ⟨rest', v', hr, h⟩ := Host.bind_eq_ok_iff.1 h
    cases h
    exact .cons (Item.mirrors_of_bind ha) (Items.mirrors_of_bind hr)

end

theorem Statement.mirrors_of_bind {source : Statement} {s : Bound.Statement σ Bound.Passes}
    (h : source.bind sweep actions functions w = (.ok s, w')) : s.Mirrors source := by
  obtain ⟨action, v, ha, h⟩ := Host.bind_eq_ok_iff.1 h
  obtain ⟨schedule, v', hs, h⟩ := Host.bind_eq_ok_iff.1 h
  obtain ⟨items, u, hi, hs⟩ := Host.bind_eq_ok_iff.1 hs
  obtain ⟨passes, u', hp, hs⟩ := Host.bind_eq_ok_iff.1 hs
  cases hs
  cases h
  obtain ⟨hwritten, htext⟩ := Call.mirrors_of_bound (Host.ofResult_eq_ok_iff.1 ha).1
  exact ⟨hwritten, htext, Bound.Item.mirrors_schedule hi (Items.mirrors_of_bind hi) (Repeat.mirrors_of_bind hp), rfl⟩

/-- The written form of a statement is that of its action, an at sign, and that of its schedule. -/
theorem Statement.text_eq (s : Statement) : s.text = s.action.text ++ "@" ++ s.schedule.text := by
  simp [Statement.text, Statement.chars, Call.text, Schedule.text, ← String.toList_inj]

/-- The statements of a bound program stand for those that were written, one to one and in order. Its action and its
calls for intervals are, name by name and argument by argument, the calls that were written, and read like them; its
items stand for the written items at every depth; and what it tells as its source is the written form of the statement,
which is that of the action, an at sign, and that of the schedule. -/
theorem forall₂_mirrors_of_bind {program : List Statement} {bound : List (Bound.Statement σ Bound.Passes)}
    (h : Statements.bind actions functions program w = (.ok bound, w')) :
    List.Forall₂ (fun source s => s.Mirrors source ∧
      s.source = source.action.text ++ "@" ++ source.schedule.text) program bound := by
  obtain ⟨_, v, _, h⟩ := Host.bind_eq_ok_iff.1 h
  refine (Host.forall₂_of_mapM h).imp ?_
  rintro source s ⟨u, u', hbind⟩
  have hmirrors := Statement.mirrors_of_bind hbind
  exact ⟨hmirrors, hmirrors.source.trans source.text_eq⟩

end Binding

/-! ## A program to look at -/

namespace Sample

/-- Declared as `bell`. -/
def bell : Callable Nat :=
  ⟨"bell", .positional ["strokes", "loud"], fun _ n => (.returned .null, n)⟩

/-- An action that is called by an alias with a list and a map, at a schedule with an empty row of items. -/
def chiming : Statement :=
  ⟨⟨"chime", [.list [.literal (.string "a"), .call "tick" []],
      .map [(.literal (.number (.int 1)), .literal (.boolean true))]]⟩,
    ⟨[.schedule [] (.times 2), .call ⟨"tick", []⟩], .forever⟩⟩

/-- `chiming`, bound. -/
def chimingForever : Bound.Statement Nat Bound.Passes :=
  ⟨⟨"chime", bell, [.list [.literal (.string "a"), .call "tick" tick []],
      .map [(.literal (.number (.int 1)), .literal (.boolean true))]]⟩,
    ⟨[.schedule [.interval .zero] (.times 2), .call tickCall], .forever⟩, chiming.text⟩

end Sample

theorem forall₂_mirrors_of_bind_chiming :
    Statements.bind ⟨.action, [("chime", Sample.bell)]⟩ Sample.functions [Sample.chiming] (.fresh 0)
        = (.ok [Sample.chimingForever], .fresh 0) ∧
      Sample.chimingForever.Mirrors Sample.chiming ∧
      Sample.chimingForever.action.text = "chime([\"a\", tick()], \x7b1: true\x7d)" ∧
      Sample.chimingForever.source = "chime([\"a\", tick()], \x7b1: true\x7d)@[[]:2, tick()]:*" := by
  have hbind : Statements.bind ⟨.action, [("chime", Sample.bell)]⟩ Sample.functions [Sample.chiming] (.fresh 0)
      = (.ok [Sample.chimingForever], .fresh 0) := rfl
  have hmirrors := forall₂_mirrors_of_bind hbind
  rw [List.forall₂_cons] at hmirrors
  obtain ⟨⟨hstatement, hsource⟩, _⟩ := hmirrors
  have haction : Sample.chiming.action.text = "chime([\"a\", tick()], \x7b1: true\x7d)" := by decide +kernel
  have hschedule : Sample.chiming.schedule.text = "[[]:2, tick()]:*" := by decide +kernel
  refine ⟨hbind, hstatement, hstatement.actionText.trans haction, ?_⟩
  rw [hsource, haction, hschedule]
  rfl

end Cadence
