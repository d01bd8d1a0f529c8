import Cadence.Proofs.Binary64.Order
import Cadence.Proofs.Bound.Stages

/-!
# The trees of bound programs

What holds of every bound program. Its schedules are solid (`Bound.Schedule.Solid`): at every depth there is an
item, and at least one pass. And the calls for its intervals are those that the program has in the places of items,
looked up among the functions; nothing is left in it of the calls for numbers of passes.
-/

namespace Cadence

variable {σ π α β : Type}

/-! ## Solid schedules -/

/-- There is at least one pass, as far as known before anything is called. -/
def Bound.Repeat.Positive : Bound.Repeat σ → Prop
  | .times n => n ≠ 0
  | .forever => True
  | .call _ => True

/-- There is at least one pass. -/
def Bound.Passes.Positive : Bound.Passes → Prop
  | .times n => n ≠ 0
  | .forever => True

mutual

/-- Every schedule within an item has an item, and passes that are `positive`. -/
def Bound.Item.Solid (positive : π → Prop) : Bound.Item σ π → Prop
  | .interval _ => True
  | .call _ => True
  | .schedule items passes => items ≠ [] ∧ positive passes ∧ Bound.Items.Solid positive items
termination_by structural a => a

def Bound.Items.Solid (positive : π → Prop) : List (Bound.Item σ π) → Prop
  | [] => True
  | a :: rest => a.Solid positive ∧ Bound.Items.Solid positive rest
termination_by structural a => a

end

/-- A schedule has an item and a pass, and so have all within it. -/
def Bound.Schedule.Solid (s : Bound.Schedule σ Bound.Passes) : Prop :=
  s.toItem.Solid Bound.Passes.Positive

theorem Bound.Items.solid_iff {positive : π → Prop} {items : List (Bound.Item σ π)} :
    Bound.Items.Solid positive items ↔ ∀ a ∈ items, a.Solid positive := by
  induction items with
  | nil => simp [Bound.Items.Solid]
  | cons a rest ih => simp [Bound.Items.Solid, ih]

theorem Bound.orZero_ne_nil (items : List (Bound.Item σ π)) : Bound.orZero items ≠ [] := by
  unfold Bound.orZero
  split
  · simp
  · next h => simpa using h

theorem Bound.Items.solid_orZero {positive : π → Prop} {items : List (Bound.Item σ π)}
    (h : Bound.Items.Solid positive items) : Bound.Items.Solid positive (Bound.orZero items) := by
  unfold Bound.orZero
  split
  · simp [Bound.Items.Solid, Bound.Item.Solid]
  · exact h

theorem Repeat.positive_of_bound {functions : Registry σ} {s : Schedule} {passes : Repeat}
    {b : Bound.Repeat σ} (h : passes.bound functions s = .ok b) : b.Positive := by
  cases passes with
  | times n =>
    simp only [Repeat.bound] at h
    split at h
    · cases h
    · next hn => cases h; exact hn
  | forever => cases h; trivial
  | call c =>
    obtain ⟨_, _, h⟩ := result_bind_eq_ok_iff.1 h
    cases h
    trivial

mutual

private theorem Item.solid_of_bound {functions : Registry σ} : ∀ {a : Item} {b : Bound.Item σ (Bound.Repeat σ)},
    a.bound functions = .ok b → b.Solid Bound.Repeat.Positive
  | .interval _, _, h => by
    cases h
    trivial
  | .call _, _, h => by
    obtain ⟨_, _, h⟩ := result_bind_eq_ok_iff.1 h
    cases h
    trivial
  | .schedule items passes, _, h => by
    obtain ⟨items', hi, h⟩ := result_bind_eq_ok_iff.1 h
    obtain ⟨passes', hp, h⟩ := result_bind_eq_ok_iff.1 h
    cases h
    exact ⟨Bound.orZero_ne_nil items', Repeat.positive_of_bound hp,
      Bound.Items.solid_orZero (Items.solid_of_bound hi)⟩

private theorem Items.solid_of_bound {functions : Registry σ} :
    ∀ {items : List Item} {b : List (Bound.Item σ (Bound.Repeat σ))},
      Items.bound functions items = .ok b → Bound.Items.Solid Bound.Repeat.Positive b
  | [], _, h => by
    cases h
    trivial
  | _ :: _, _, h => by
    obtain ⟨a', ha, h⟩ := result_bind_eq_ok_iff.1 h
    obtain ⟨rest', hr, h⟩ := result_bind_eq_ok_iff.1 h
    cases h
    exact ⟨Item.solid_of_bound ha, Items.solid_of_bound hr⟩

end

/-- The number of passes that a value stands for is not zero. -/
theorem Bound.Call.passes_ne_zero {c : Bound.Call σ} {value : Value} {n : UInt64}
    (h : c.passes value = .ok n) : n ≠ 0 := by
  unfold Bound.Call.passes at h
  split at h
  · next x _ =>
    split at h
    · next hx =>
      simp only [Bool.and_eq_true] at hx
      have hfinite : x.isFinite = true := by
        cases x with
        | nan => exact hx.1.1
        | signed _ m => exact (Bool.and_eq_true _ _ ▸ hx.1.1).1
      have hone := Binary64.one_le_clamp hx.1.2 hfinite (show 1 ≤ (UInt64.size - 1 : Int) by decide)
      have hmax := Binary64.clamp_le x (show 0 ≤ (UInt64.size - 1 : Int) by decide)
      cases h
      generalize x.clamp 0 (UInt64.size - 1) = count at hone hmax
      -- the count is below `UInt64.size`, so it does not wrap around to zero
      intro hzero
      have hmod : count.toNat % UInt64.size = 0 := congrArg UInt64.toNat hzero
      unfold UInt64.size at hmod hmax
      omega
    · cases h
  · cases h

theorem Bound.Repeat.positive_of_settle {passes : Bound.Repeat σ} (h : passes.Positive) {w w' : World σ}
    {b : Bound.Passes} (hs : passes.settle w = (.ok b, w')) : b.Positive := by
  cases passes with
  | times n => cases hs; exact h
  | forever => cases hs; trivial
  | call c =>
    obtain ⟨value, v, _, hs⟩ := Host.bind_eq_ok_iff.1 hs
    obtain ⟨n, v', hn, hs⟩ := Host.bind_eq_ok_iff.1 hs
    cases hs
    exact Bound.Call.passes_ne_zero (congrArg Prod.fst hn)

private theorem Bound.Items.eq_nil_of_settle {items : List (Bound.Item σ (Bound.Repeat σ))} {w w' : World σ}
    (h : Bound.Items.settle items w = (.ok [], w')) : items = [] := by
  cases items with
  | nil => rfl
  | cons a rest =>
    obtain ⟨_, _, _, h⟩ := Host.bind_eq_ok_iff.1 h
    obtain ⟨_, _, _, h⟩ := Host.bind_eq_ok_iff.1 h
    cases h

mutual

private theorem Bound.Item.solid_of_settle : ∀ {a : Bound.Item σ (Bound.Repeat σ)} {b w w'},
    a.Solid Bound.Repeat.Positive → a.settle w = (.ok b, w') → b.Solid Bound.Passes.Positive
  | .interval _, _, _, _, _, hs => by
    cases hs
    trivial
  | .call _, _, _, _, _, hs => by
    cases hs
    trivial
  | .schedule items passes, _, _, _, h, hs => by
    obtain ⟨hne, hpos, hitems⟩ := h
    obtain ⟨items', v, hi, hs⟩ := Host.bind_eq_ok_iff.1 hs
    obtain ⟨passes', v', hp, hs⟩ := Host.bind_eq_ok_iff.1 hs
    cases hs
    refine ⟨?_, Bound.Repeat.positive_of_settle hpos hp, Bound.Items.solid_of_settle hitems hi⟩
    rintro rfl
    exact hne (Bound.Items.eq_nil_of_settle hi)

private theorem Bound.Items.solid_of_settle : ∀ {items : List (Bound.Item σ (Bound.Repeat σ))} {b w w'},
    Bound.Items.Solid Bound.Repeat.Positive items → Bound.Items.settle items w = (.ok b, w') →
      Bound.Items.Solid Bound.Passes.Positive b
  | [], _, _, _, _, hs => by
    cases hs
    trivial
  | _ :: _, _, _, _, h, hs => by
    obtain ⟨a', v, ha, hs⟩ := Host.bind_eq_ok_iff.1 hs
    obtain ⟨rest', v', hr, hs⟩ := Host.bind_eq_ok_iff.1 hs
    cases hs
    exact ⟨Bound.Item.solid_of_settle h.1 ha, Bound.Items.solid_of_settle h.2 hr⟩

end

/-! ## The calls for intervals -/

mutual

/-- The calls in the places of items, from left to right. -/
def Item.intervalCalls : Item → List Call
  | .interval _ => []
  | .call c => [c]
  | .schedule items _ => Items.intervalCalls items
termination_by structural a => a

def Items.intervalCalls : List Item → List Call
  | [] => []
  | a :: rest => a.intervalCalls ++ Items.intervalCalls rest
termination_by structural a => a

end

mutual

def Bound.Item.intervalCalls : Bound.Item σ π → List (Bound.Call σ)
  | .interval _ => []
  | .call c => [c]
  | .schedule items _ => Bound.Items.intervalCalls items
termination_by structural a => a

def Bound.Items.intervalCalls : List (Bound.Item σ π) → List (Bound.Call σ)
  | [] => []
  | a :: rest => a.intervalCalls ++ Bound.Items.intervalCalls rest
termination_by structural a => a

end

theorem Bound.Items.intervalCalls_orZero (items : List (Bound.Item σ π)) :
    Bound.Items.intervalCalls (Bound.orZero items) = Bound.Items.intervalCalls items := by
  unfold Bound.orZero
  split
  · next h => rw [List.isEmpty_iff.1 h]; rfl
  · rfl

/-- Two rows of calls that are looked up one after the other are looked up as one. -/
theorem mapM_append_of_ok {f : α → Except Error β} {l l' : List α} {b b' : List β} (h : l.mapM f = .ok b)
    (h' : l'.mapM f = .ok b') : (l ++ l').mapM f = .ok (b ++ b') := by
  rw [List.mapM_append, h, h']
  rfl

/-- What comes from looking up a row of calls comes from one of them. -/
theorem mem_of_mapM_eq_ok {f : α → Except Error β} {l : List α} {l' : List β} (h : l.mapM f = .ok l') {b : β}
    (hb : b ∈ l') : ∃ a ∈ l, f a = .ok b := by
  induction l generalizing l' with
  | nil =>
    cases h
    cases hb
  | cons a rest ih =>
    rw [List.mapM_cons] at h
    obtain ⟨b', ha, h⟩ := result_bind_eq_ok_iff.1 h
    obtain ⟨rest', hr, h⟩ := result_bind_eq_ok_iff.1 h
    cases h
    rcases List.mem_cons.1 hb with rfl | hb
    · exact ⟨a, List.mem_cons_self, ha⟩
    · obtain ⟨a', ha', hf⟩ := ih hr hb
      exact ⟨a', List.mem_cons_of_mem _ ha', hf⟩

mutual

private theorem Item.mapM_intervalCalls {functions : Registry σ} : ∀ {a : Item} {b},
    a.bound functions = .ok b → a.intervalCalls.mapM (Call.bound functions functions) = .ok b.intervalCalls
  | .interval _, _, h => by
    cases h
    rfl
  | .call c, _, h => by
    obtain ⟨c', hc, h⟩ := result_bind_eq_ok_iff.1 h
    cases h
    simp only [Item.intervalCalls, Bound.Item.intervalCalls, List.mapM_cons, List.mapM_nil, hc]
    rfl
  | .schedule items passes, _, h => by
    obtain ⟨items', hi, h⟩ := result_bind_eq_ok_iff.1 h
    obtain ⟨passes', _, h⟩ := result_bind_eq_ok_iff.1 h
    cases h
    rw [Item.intervalCalls, Bound.Item.intervalCalls, Bound.Items.intervalCalls_orZero]
    exact Items.mapM_intervalCalls hi

private theorem Items.mapM_intervalCalls {functions : Registry σ} : ∀ {items : List Item} {b},
    Items.bound functions items = .ok b →
      (Items.intervalCalls items).mapM (Call.bound functions functions) = .ok (Bound.Items.intervalCalls b)
  | [], _, h => by
    cases h
    rfl
  | _ :: _, _, h => by
    obtain ⟨a', ha, h⟩ := result_bind_eq_ok_iff.1 h
    obtain ⟨rest', hr, h⟩ := result_bind_eq_ok_iff.1 h
    cases h
    exact mapM_append_of_ok (Item.mapM_intervalCalls ha) (Items.mapM_intervalCalls hr)

end

mutual

private theorem Bound.Item.intervalCalls_of_settle : ∀ {a : Bound.Item σ (Bound.Repeat σ)} {b w w'},
    a.settle w = (.ok b, w') → b.intervalCalls = a.intervalCalls
  | .interval _, _, _, _, h => by
    cases h
    rfl
  | .call _, _, _, _, h => by
    cases h
    rfl
  | .schedule items passes, _, _, _, h => by
    obtain ⟨items', v, hi, h⟩ := Host.bind_eq_ok_iff.1 h
    obtain ⟨passes', v', _, h⟩ := Host.bind_eq_ok_iff.1 h
    cases h
    exact Bound.Items.intervalCalls_of_settle hi

private theorem Bound.Items.intervalCalls_of_settle : ∀ {items : List (Bound.Item σ (Bound.Repeat σ))} {b w w'},
    Bound.Items.settle items w = (.ok b, w') → Bound.Items.intervalCalls b = Bound.Items.intervalCalls items
  | [], _, _, _, h => by
    cases h
    rfl
  | _ :: _, _, _, _, h => by
    obtain ⟨a', v, ha, h⟩ := Host.bind_eq_ok_iff.1 h
    obtain ⟨rest', v', hr, h⟩ := Host.bind_eq_ok_iff.1 h
    cases h
    rw [Bound.Items.intervalCalls, Bound.Items.intervalCalls, Bound.Item.intervalCalls_of_settle ha,
      Bound.Items.intervalCalls_of_settle hr]

end

/-! ## Schedules within schedules -/

/-- A schedule is `s` itself or stands, at whatever depth, within `s`. -/
inductive Bound.Schedule.Within (s : Bound.Schedule σ π) : Bound.Schedule σ π → Prop
  | self : Within s s
  | inner {t : Bound.Schedule σ π} {items : List (Bound.Item σ π)} {passes : π} :
    Within s t → .schedule items passes ∈ t.items → Within s ⟨items, passes⟩

theorem Bound.Schedule.Within.solid {s t : Bound.Schedule σ Bound.Passes} (h : s.Within t) (hs : s.Solid) :
    t.Solid := by
  induction h with
  | self => exact hs
  | inner _ hmem ih => exact Bound.Items.solid_iff.1 ih.2.2 _ hmem

theorem Bound.Items.mem_intervalCalls_of_mem {items : List (Bound.Item σ π)} {a : Bound.Item σ π} (h : a ∈ items)
    {c : Bound.Call σ} (hc : c ∈ a.intervalCalls) : c ∈ Bound.Items.intervalCalls items := by
  induction items with
  | nil => cases h
  | cons b rest ih =>
    rw [Bound.Items.intervalCalls, List.mem_append]
    rcases List.mem_cons.1 h with rfl | h
    · exact .inl hc
    · exact .inr (ih h)

theorem Bound.Schedule.Within.mem_intervalCalls {s t : Bound.Schedule σ π} (h : s.Within t) {c : Bound.Call σ}
    (hc : c ∈ t.toItem.intervalCalls) : c ∈ s.toItem.intervalCalls := by
  induction h with
  | self => exact hc
  | inner _ hmem ih => exact ih (Bound.Items.mem_intervalCalls_of_mem hmem hc)

/-! ## Bound programs -/

/-- A bound statement is one of the program, looked up and settled. -/
structure Bound.Statement.Binds (actions functions : Registry σ) (source : Cadence.Statement)
    (s : Bound.Statement σ Bound.Passes) : Prop where
  action : source.action.bound actions functions = .ok s.action
  schedule : ∃ looked w w', source.schedule.bound functions = .ok looked ∧ looked.settle w = (.ok s.schedule, w')

private theorem binds_of_settle {actions functions : Registry σ} {source : Statement} {looked w s w'}
    (hb : source.bound actions functions = .ok looked) (hs : looked.settle w = (.ok s, w')) :
    Bound.Statement.Binds actions functions source s := by
  obtain ⟨action, ha, hb⟩ := result_bind_eq_ok_iff.1 hb
  obtain ⟨schedule, hsched, hb⟩ := result_bind_eq_ok_iff.1 hb
  cases hb
  obtain ⟨settled, v, hv, hs⟩ := Host.bind_eq_ok_iff.1 hs
  cases hs
  exact ⟨ha, schedule, _, _, hsched, hv⟩

private theorem exists_binds_of_mapM {actions functions : Registry σ} {program : List Statement} {looked bound w w'}
    (hb : program.mapM (Statement.bound actions functions) = .ok looked)
    (hs : (looked.mapM Bound.Statement.settle : Host σ _) w = (.ok bound, w')) {s} (hmem : s ∈ bound) :
    ∃ source ∈ program, Bound.Statement.Binds actions functions source s := by
  induction program generalizing looked bound w with
  | nil =>
    cases hb
    cases hs
    cases hmem
  | cons source rest ih =>
    rw [List.mapM_cons] at hb
    obtain ⟨l, hl, hb⟩ := result_bind_eq_ok_iff.1 hb
    obtain ⟨ls, hls, hb⟩ := result_bind_eq_ok_iff.1 hb
    cases hb
    rw [List.mapM_cons] at hs
    obtain ⟨b, v, hsl, hs⟩ := Host.bind_eq_ok_iff.1 hs
    obtain ⟨bs, v', hsls, hs⟩ := Host.bind_eq_ok_iff.1 hs
    cases hs
    rcases List.mem_cons.1 hmem with rfl | hmem
    · exact ⟨source, List.mem_cons_self, binds_of_settle hl hsl⟩
    · obtain ⟨source', hmem', hbinds⟩ := ih hls hsls hmem
      exact ⟨source', List.mem_cons_of_mem _ hmem', hbinds⟩

/-- Every statement of a bound program is a statement of the program, looked up and settled. -/
theorem exists_binds_of_bind {actions functions : Registry σ} {program : List Statement} {bound w w'}
    (h : Statements.bind actions functions program w = (.ok bound, w')) {s} (hmem : s ∈ bound) :
    ∃ source ∈ program, Bound.Statement.Binds actions functions source s := by
  cases hl : program.mapM (Statement.bound actions functions) with
  | error e =>
    rw [Statements.bind_of_error hl] at h
    cases h
  | ok looked =>
    rw [Statements.bind_of_ok hl] at h
    exact exists_binds_of_mapM hl h hmem

namespace Bound.Statement.Binds

variable {actions functions : Registry σ} {source : Cadence.Statement} {s : Bound.Statement σ Bound.Passes}

private theorem toItem (h : Binds actions functions source s) :
    ∃ looked w w', source.schedule.toItem.bound functions = .ok looked ∧
      looked.settle w = (.ok s.schedule.toItem, w') := by
  obtain ⟨looked, w, w', hb, hs⟩ := h.schedule
  obtain ⟨items, hi, hb⟩ := result_bind_eq_ok_iff.1 hb
  obtain ⟨passes, hp, hb⟩ := result_bind_eq_ok_iff.1 hb
  cases hb
  obtain ⟨items', v, hi', hs⟩ := Host.bind_eq_ok_iff.1 hs
  obtain ⟨passes', v', hp', hs⟩ := Host.bind_eq_ok_iff.1 hs
  generalize s.schedule = schedule at hs
  cases hs
  refine ⟨.schedule (Bound.orZero items) passes, w, w', ?_, ?_⟩
  · exact result_bind_eq_ok_iff.2 ⟨items, hi, result_bind_eq_ok_iff.2 ⟨passes, hp, rfl⟩⟩
  · exact Host.bind_eq_ok_iff.2 ⟨items', v, hi', Host.bind_eq_ok_iff.2 ⟨passes', _, hp', rfl⟩⟩

theorem solid (h : Binds actions functions source s) : s.schedule.Solid := by
  obtain ⟨looked, w, w', hb, hs⟩ := h.toItem
  exact Bound.Item.solid_of_settle (Item.solid_of_bound hb) hs

/-- The calls for intervals in a bound statement are those of the statement, looked up among the functions. -/
theorem mapM_intervalCalls (h : Binds actions functions source s) :
    source.schedule.toItem.intervalCalls.mapM (Call.bound functions functions)
      = .ok s.schedule.toItem.intervalCalls := by
  obtain ⟨looked, w, w', hb, hs⟩ := h.toItem
  rw [Bound.Item.intervalCalls_of_settle hs]
  exact Item.mapM_intervalCalls hb

/-- A call for an interval in a bound statement is one of the statement's, looked up among the functions. -/
theorem exists_of_mem_intervalCalls (h : Binds actions functions source s) {c : Bound.Call σ}
    (hc : c ∈ s.schedule.toItem.intervalCalls) :
    ∃ node ∈ source.schedule.toItem.intervalCalls, node.bound functions functions = .ok c :=
  mem_of_mapM_eq_ok h.mapM_intervalCalls hc

end Bound.Statement.Binds

/-- A statement of some bound program. -/
def Bound.Statement.IsBound (s : Bound.Statement σ Bound.Passes) : Prop :=
  ∃ actions functions program w bound w', Statements.bind actions functions program w = (.ok bound, w') ∧ s ∈ bound

theorem Bound.Statement.IsBound.solid {s : Bound.Statement σ Bound.Passes} (h : s.IsBound) : s.schedule.Solid := by
  obtain ⟨_, _, _, _, _, _, hbind, hs⟩ := h
  obtain ⟨_, _, hbinds⟩ := exists_binds_of_bind hbind hs
  exact hbinds.solid

end Cadence
