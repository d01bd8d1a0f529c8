import Cadence.Proofs.Bound.Host

/-!
# Binding in two stages

What the two sweeps of binding come to: all calls of a program are looked up, which leaves a program whose calls for
numbers of passes are still to be made, and then these calls are made (`Statements.bind_of_ok`). A program that cannot
be looked up is refused in the first sweep (`Statements.bind_of_error`). The key facts are that a checking sweep fails
exactly as looking up does (`Checks`), and that an asking sweep over what was looked up without failure settles it
(`Item.bind_asking`).
-/

namespace Cadence

variable {σ α β γ δ : Type}

/-! ## Looking up -/

/-- How often a schedule is gone through, as far as known before anything is called. -/
inductive Bound.Repeat (σ : Type)
  | times (count : UInt64)
  | forever
  | call (call : Bound.Call σ)

/-- Checks the number of passes of `schedule`, or looks up the call for it. -/
def Repeat.bound (functions : Registry σ) (schedule : Schedule) : Repeat → Except Error (Bound.Repeat σ)
  | .times n => if n = 0 then .error (.zeroPasses schedule) else .ok (.times n)
  | .forever => .ok .forever
  | .call c => do
    let c ← c.bound functions functions
    return .call c

mutual

/-- Looks up the callables of an item. -/
def Item.bound (functions : Registry σ) : Item → Except Error (Bound.Item σ (Bound.Repeat σ))
  | .interval n => .ok (.interval n.toBinary64)
  | .call c => do
    let c ← c.bound functions functions
    return .call c
  | .schedule items passes => do
    let bound ← Items.bound functions items
    let passes ← passes.bound functions ⟨items, passes⟩
    return .schedule (Bound.orZero bound) passes
termination_by structural a => a

def Items.bound (functions : Registry σ) : List Item → Except Error (List (Bound.Item σ (Bound.Repeat σ)))
  | [] => .ok []
  | a :: rest => do
    let a ← a.bound functions
    let rest ← Items.bound functions rest
    return a :: rest
termination_by structural a => a

end

/-- Looks up the callables of a schedule: those of its items, then the one for its number of passes. -/
def Schedule.bound (functions : Registry σ) (s : Schedule) :
    Except Error (Bound.Schedule σ (Bound.Repeat σ)) := do
  let items ← Items.bound functions s.items
  let passes ← s.passes.bound functions s
  return ⟨Bound.orZero items, passes⟩

/-- Looks up the callables of a statement: its action among the actions, all others among the functions. -/
def Statement.bound (actions functions : Registry σ) (s : Statement) :
    Except Error (Bound.Statement σ (Bound.Repeat σ)) := do
  let action ← s.action.bound actions functions
  let schedule ← s.schedule.bound functions
  return ⟨action, schedule, s.text⟩

/-! ## Settling -/

namespace Bound

/-- Finds the number of passes, by a call if need be. -/
def Repeat.settle : Repeat σ → Host σ Passes
  | .times n => pure (.times n)
  | .forever => pure .forever
  | .call c => do
    let value ← c.invoke
    let n ← Host.ofResult (c.passes value)
    return .times n

mutual

/-- Finds the numbers of passes within an item. -/
def Item.settle : Item σ (Repeat σ) → Host σ (Item σ Passes)
  | .interval x => pure (.interval x)
  | .call c => pure (.call c)
  | .schedule items passes => do
    let items ← Items.settle items
    let passes ← passes.settle
    return .schedule items passes
termination_by structural a => a

def Items.settle : List (Item σ (Repeat σ)) → Host σ (List (Item σ Passes))
  | [] => pure []
  | a :: rest => do
    let a ← a.settle
    let rest ← Items.settle rest
    return a :: rest
termination_by structural a => a

end

/-- Finds the numbers of passes of a schedule: those within its items, then its own. -/
def Schedule.settle (s : Schedule σ (Repeat σ)) : Host σ (Schedule σ Passes) := do
  let items ← Items.settle s.items
  let passes ← s.passes.settle
  return ⟨items, passes⟩

def Statement.settle (s : Statement σ (Repeat σ)) : Host σ (Statement σ Passes) := do
  let schedule ← s.schedule.settle
  return ⟨s.action, schedule, s.source⟩

end Bound

/-! ## Checking sweeps -/

/-- A computation fails exactly as a result does, and it leaves the world alone. -/
def Checks (r : Except Error α) (m : Host σ β) : Prop :=
  ∀ w, (∀ e, r = .error e → m w = (.error e, w)) ∧ ∀ a, r = .ok a → ∃ b, m w = (.ok b, w)

namespace Checks

theorem pure (a : α) (b : β) : Checks (.ok a) (pure b : Host σ β) := by
  intro w
  constructor
  · intro e h
    cases h
  · intro a' _
    exact ⟨b, rfl⟩

theorem error (e : Error) : Checks (.error e : Except Error α) (Host.ofResult (.error e) : Host σ β) := by
  intro w
  constructor
  · rintro _ ⟨⟩
    rfl
  · intro a h
    cases h

theorem ofResult (r : Except Error α) : Checks r (Host.ofResult r : Host σ α) := by
  cases r with
  | error e => exact Checks.error e
  | ok a => exact Checks.pure a a

theorem bind {r : Except Error α} {m : Host σ β} {g : α → Except Error γ} {f : β → Host σ δ} (hm : Checks r m)
    (hf : ∀ a b, Checks (g a) (f b)) : Checks (r >>= g) (m >>= f) := by
  intro w
  cases r with
  | error e =>
    constructor
    · intro e' h
      cases h
      exact Host.bind_of_error ((hm w).1 e rfl) f
    · intro c h
      cases h
  | ok a =>
    obtain ⟨b, hb⟩ := (hm w).2 a rfl
    rw [Host.bind_of_ok hb]
    exact hf a b w

end Checks

section Sweeps

variable {actions functions : Registry σ}

theorem Repeat.checks (s : Schedule) (passes : Repeat) :
    Checks (passes.bound functions s) (passes.bind .checking functions s) := by
  cases passes with
  | times n =>
    rw [Repeat.bound, Repeat.bind]
    by_cases hn : n = 0
    · rw [if_pos hn, if_pos hn]
      exact Checks.error _
    · rw [if_neg hn, if_neg hn]
      exact Checks.pure _ _
  | forever => exact Checks.pure _ _
  | call c => exact (Checks.ofResult _).bind fun _ _ => Checks.pure _ _

mutual

theorem Item.checks : ∀ a : Item, Checks (a.bound functions) (a.bind .checking functions)
  | .interval _ => Checks.pure _ _
  | .call _ => (Checks.ofResult _).bind fun _ _ => Checks.pure _ _
  | .schedule items passes => (Items.checks items).bind fun _ _ =>
      (Repeat.checks ⟨items, passes⟩ passes).bind fun _ _ => Checks.pure _ _

theorem Items.checks : ∀ items : List Item, Checks (Items.bound functions items) (Items.bind .checking functions items)
  | [] => Checks.pure _ _
  | a :: rest => (Item.checks a).bind fun _ _ => (Items.checks rest).bind fun _ _ => Checks.pure _ _

end

theorem Schedule.checks (s : Schedule) : Checks (s.bound functions) (s.bind .checking functions) :=
  (Items.checks s.items).bind fun _ _ => (Repeat.checks s s.passes).bind fun _ _ => Checks.pure _ _

theorem Statement.checks (s : Statement) :
    Checks (s.bound actions functions) (s.bind .checking actions functions) :=
  (Checks.ofResult _).bind fun _ _ => s.schedule.checks.bind fun _ _ => Checks.pure _ _

/-- A checking sweep over a program fails exactly as looking it up does, and calls nothing. -/
theorem Statements.checks (program : List Statement) :
    Checks (program.mapM (Statement.bound actions functions))
      (program.mapM (Statement.bind .checking actions functions)) := by
  induction program with
  | nil => exact Checks.pure _ _
  | cons s rest ih =>
    rw [List.mapM_cons, List.mapM_cons]
    exact s.checks.bind fun _ _ => ih.bind fun _ _ => Checks.pure _ _

/-! ## Asking sweeps -/

theorem Bound.Items.settle_orZero (items : List (Bound.Item σ (Bound.Repeat σ))) :
    Bound.Items.settle (Bound.orZero items) = (do
      let settled ← Bound.Items.settle items
      return Bound.orZero settled) := by
  cases items with
  | nil => rfl
  | cons a rest =>
    show Bound.Items.settle (a :: rest) = _
    simp only [Bound.Items.settle, bind_assoc, pure_bind]
    rfl

theorem Repeat.bind_asking {s : Schedule} {passes : Repeat} {looked : Bound.Repeat σ}
    (h : passes.bound functions s = .ok looked) : passes.bind .asking functions s = looked.settle := by
  cases passes with
  | times n =>
    rw [Repeat.bound] at h
    split at h
    · cases h
    · next hn =>
      cases h
      rw [Repeat.bind, if_neg hn]
      rfl
  | forever =>
    cases h
    rfl
  | call c =>
    obtain ⟨c', hc, h⟩ := result_bind_eq_ok_iff.1 h
    cases h
    rw [Repeat.bind, hc]
    rfl

mutual

/-- An asking sweep over an item that was looked up settles what was found. -/
theorem Item.bind_asking : ∀ {a : Item} {looked}, a.bound functions = .ok looked →
    a.bind .asking functions = looked.settle
  | .interval _, _, h => by
    cases h
    rfl
  | .call c, _, h => by
    obtain ⟨c', hc, h⟩ := result_bind_eq_ok_iff.1 h
    cases h
    rw [Item.bind, hc]
    rfl
  | .schedule items passes, _, h => by
    obtain ⟨items', hi, h⟩ := result_bind_eq_ok_iff.1 h
    obtain ⟨passes', hp, h⟩ := result_bind_eq_ok_iff.1 h
    cases h
    rw [Item.bind, Items.bind_asking hi, Repeat.bind_asking hp, Bound.Item.settle, Bound.Items.settle_orZero]
    simp only [bind_assoc, pure_bind]

theorem Items.bind_asking : ∀ {items : List Item} {looked}, Items.bound functions items = .ok looked →
    Items.bind .asking functions items = Bound.Items.settle looked
  | [], _, h => by
    cases h
    rfl
  | a :: rest, _, h => by
    obtain ⟨a', ha, h⟩ := result_bind_eq_ok_iff.1 h
    obtain ⟨rest', hr, h⟩ := result_bind_eq_ok_iff.1 h
    cases h
    rw [Items.bind, Item.bind_asking ha, Items.bind_asking hr, Bound.Items.settle]

end

theorem Schedule.bind_asking {s : Schedule} {looked} (h : s.bound functions = .ok looked) :
    s.bind .asking functions = looked.settle := by
  obtain ⟨items, hi, h⟩ := result_bind_eq_ok_iff.1 h
  obtain ⟨passes, hp, h⟩ := result_bind_eq_ok_iff.1 h
  cases h
  rw [Schedule.bind, Items.bind_asking hi, Repeat.bind_asking hp, Bound.Schedule.settle, Bound.Items.settle_orZero]
  simp only [bind_assoc, pure_bind]

theorem Statement.bind_asking {s : Statement} {looked} (h : s.bound actions functions = .ok looked) :
    s.bind .asking actions functions = looked.settle := by
  obtain ⟨action, ha, h⟩ := result_bind_eq_ok_iff.1 h
  obtain ⟨schedule, hs, h⟩ := result_bind_eq_ok_iff.1 h
  cases h
  rw [Statement.bind, ha, Schedule.bind_asking hs]
  rfl

theorem Statements.bind_asking {program : List Statement} {looked}
    (h : program.mapM (Statement.bound actions functions) = .ok looked) :
    program.mapM (Statement.bind .asking actions functions) = looked.mapM Bound.Statement.settle := by
  induction program generalizing looked with
  | nil =>
    cases h
    rfl
  | cons s rest ih =>
    rw [List.mapM_cons] at h
    obtain ⟨s', hs, h⟩ := result_bind_eq_ok_iff.1 h
    obtain ⟨rest', hr, h⟩ := result_bind_eq_ok_iff.1 h
    cases h
    rw [List.mapM_cons, List.mapM_cons, Statement.bind_asking hs, ih hr]

/-! ## Both sweeps -/

/-- A program that cannot be looked up is refused with the error of that, and the world is left alone. -/
theorem Statements.bind_of_error {program : List Statement} {e : Error}
    (h : program.mapM (Statement.bound actions functions) = .error e) (w : World σ) :
    Statements.bind actions functions program w = (.error e, w) :=
  Host.bind_of_error ((Statements.checks program w).1 e h) _

/-- Binding a program that can be looked up settles what was found. -/
theorem Statements.bind_of_ok {program : List Statement} {looked}
    (h : program.mapM (Statement.bound actions functions) = .ok looked) :
    Statements.bind actions functions program = looked.mapM Bound.Statement.settle := by
  funext w
  obtain ⟨_, hchecked⟩ := (Statements.checks program w).2 looked h
  rw [← Statements.bind_asking h]
  exact Host.bind_of_ok hchecked _

end Sweeps

end Cadence
