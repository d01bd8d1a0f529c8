import Cadence.Proofs.Binary64.Overflow
import Cadence.Proofs.Program.Canonical
import Cadence.Proofs.Run.LifeCycle
import Cadence.Proofs.Run.Rounds
import Cadence.Run.Ensemble
import Cadence.Run.Solo
import Cadence.Scheduler

/-!
# Intervals and delays

No cursor over a program that was loaded hands out an interval that is negative, infinite or "not a number"
(`Cursor.Used.isInterval`). A written interval has no sign in the text that it was read from, and is bound as it is
(`Item.timed_of_bind`); the value of a call is checked when it is pulled. So whatever runs of the program ask for as
delays, alone (`Performance.Paced.run`) or together (`Ensemble.Paced.run`), are intervals that were scaled.
-/

namespace Cadence

variable {σ π α β : Type}

/-! ## Written intervals -/

mutual

/-- Every interval that is written in an item is finite and not negative. -/
def Bound.Item.Timed : Bound.Item σ π → Prop
  | .interval seconds => seconds.IsInterval
  | .call _ => True
  | .schedule items _ => Bound.Items.Timed items
termination_by structural a => a

def Bound.Items.Timed : List (Bound.Item σ π) → Prop
  | [] => True
  | a :: rest => a.Timed ∧ Bound.Items.Timed rest
termination_by structural a => a

end

theorem Bound.Items.timed_iff {items : List (Bound.Item σ π)} : Bound.Items.Timed items ↔ ∀ a ∈ items, a.Timed := by
  induction items with
  | nil => simp [Bound.Items.Timed]
  | cons a rest ih => simp [Bound.Items.Timed, ih]

theorem Binary64.isInterval_zero : Binary64.zero.IsInterval :=
  ⟨rfl, rfl⟩

theorem Bound.Items.timed_orZero {items : List (Bound.Item σ π)} (h : Bound.Items.Timed items) :
    Bound.Items.Timed (Bound.orZero items) := by
  unfold Bound.orZero
  split
  · exact ⟨Binary64.isInterval_zero, trivial⟩
  · exact h

theorem Number.IsInterval.toBinary64 {n : Number} (h : n.IsInterval) : n.toBinary64.IsInterval := by
  cases n with
  | int i => exact Binary64.isInterval_ofInt h
  | float x =>
    obtain ⟨m, hfinite, rfl⟩ := h
    exact ⟨hfinite, Binary64.zero_le_signed_iff.2 fun h => absurd h Bool.false_ne_true⟩

section Binding

variable {functions : Registry σ} {sweep : Sweep}

mutual

/-- Binding keeps the written intervals as they are. -/
theorem Item.timed_of_bind : ∀ {a : Item} {b : Bound.Item σ Bound.Passes} {w w' : World σ}, a.Proper →
    a.bind sweep functions w = (.ok b, w') → b.Timed
  | .interval _, _, _, _, hproper, h => by
    cases h
    exact Number.IsInterval.toBinary64 hproper
  | .call _, _, _, _, _, h => by
    obtain ⟨_, _, _, h⟩ := Host.bind_eq_ok_iff.1 h
    cases h
    trivial
  | .schedule _ _, _, _, _, hproper, h => by
    obtain ⟨_, _, hitems, h⟩ := Host.bind_eq_ok_iff.1 h
    obtain ⟨_, _, _, h⟩ := Host.bind_eq_ok_iff.1 h
    cases h
    exact Bound.Items.timed_orZero (Items.timed_of_bind hproper.2 hitems)

theorem Items.timed_of_bind : ∀ {items : List Item} {b : List (Bound.Item σ Bound.Passes)} {w w' : World σ},
    Items.Proper items → Items.bind sweep functions items w = (.ok b, w') → Bound.Items.Timed b
  | [], _, _, _, _, h => by
    cases h
    trivial
  | _ :: _, _, _, _, hproper, h => by
    obtain ⟨_, _, ha, h⟩ := Host.bind_eq_ok_iff.1 h
    obtain ⟨_, _, hrest, h⟩ := Host.bind_eq_ok_iff.1 h
    cases h
    exact ⟨Item.timed_of_bind hproper.1 ha, Items.timed_of_bind hproper.2 hrest⟩

end

theorem Statement.timed_of_bind {actions : Registry σ} {s : Statement} {b : Bound.Statement σ Bound.Passes}
    {w w' : World σ} (hproper : s.Proper) (h : s.bind sweep actions functions w = (.ok b, w')) :
    b.schedule.toItem.Timed := by
  obtain ⟨_, _, _, h⟩ := Host.bind_eq_ok_iff.1 h
  obtain ⟨schedule, _, hschedule, h⟩ := Host.bind_eq_ok_iff.1 h
  cases h
  obtain ⟨_, _, hitems, hschedule⟩ := Host.bind_eq_ok_iff.1 hschedule
  obtain ⟨_, _, _, hschedule⟩ := Host.bind_eq_ok_iff.1 hschedule
  cases hschedule
  exact Bound.Items.timed_orZero (Items.timed_of_bind hproper.2.2 hitems)

end Binding

theorem Host.mem_of_mapM_eq_ok {f : α → Host σ β} {l : List α} {l' : List β} {w w' : World σ}
    (h : (l.mapM f) w = (.ok l', w')) {b : β} (hb : b ∈ l') : ∃ a ∈ l, ∃ v v', f a v = (.ok b, v') := by
  obtain ⟨i, hi, rfl⟩ := List.getElem_of_mem hb
  have hall := Host.forall₂_of_mapM h
  have hi' : i < l.length := hall.length_eq ▸ hi
  exact ⟨l[i], List.getElem_mem hi', hall.get hi' hi⟩

/-- A schedule has an item and a pass, at every depth, and its written intervals are finite and not negative. -/
structure Bound.Schedule.Regular (s : Bound.Schedule σ Bound.Passes) : Prop where
  solid : s.Solid
  timed : s.toItem.Timed

theorem Scheduler.regular_of_load {scheduler : Scheduler σ} {source : String} {w w' : World σ}
    {bound : List (Bound.Statement σ Bound.Passes)} (h : scheduler.load source w = (.ok bound, w'))
    {s : Bound.Statement σ Bound.Passes} (hs : s ∈ bound) : s.schedule.Regular := by
  obtain ⟨program, v, hread, hbind⟩ := Host.bind_eq_ok_iff.1 h
  have hparse : parseProgram source = .ok program := by
    have hread : readProgram source = .ok program := congrArg Prod.fst hread
    unfold readProgram at hread
    cases hparse : parseProgram source with
    | error e =>
      rw [hparse] at hread
      cases hread
    | ok l =>
      rw [hparse] at hread
      cases hread
      rfl
  obtain ⟨_, hwell⟩ := (statements_eq_ok_iff.1 (inSource_eq_ok_iff.1 hparse)).wellFormed
  constructor
  · obtain ⟨_, _, hbinds⟩ := exists_binds_of_bind hbind hs
    exact hbinds.solid
  · obtain ⟨_, _, _, hasking⟩ := Host.bind_eq_ok_iff.1 hbind
    obtain ⟨statement, hmem, _, _, hstatement⟩ := Host.mem_of_mapM_eq_ok hasking hs
    exact Statement.timed_of_bind (hwell statement hmem).1 hstatement

/-! ## Leaves and cursors -/

mutual

theorem Bound.Item.isInterval_of_mem {seconds : Binary64} : ∀ {a : Bound.Item σ Bound.Passes}, a.Timed →
    Leaf.interval seconds ∈ a.leaves → seconds.IsInterval
  | .interval _, htimed, h => by
    rcases Stream'.Seq.mem_cons_iff.1 h with h | h
    · cases h
      exact htimed
    · exact absurd h (Stream'.Seq.notMem_nil _)
  | .call _, _, h => by
    rcases Stream'.Seq.mem_cons_iff.1 h with h | h
    · cases h
    · exact absurd h (Stream'.Seq.notMem_nil _)
  | .schedule _ (.times _), htimed, h => Bound.Items.isInterval_of_mem htimed (of_mem_copies h)
  | .schedule _ .forever, htimed, h => Bound.Items.isInterval_of_mem htimed (of_mem_endless h)

theorem Bound.Items.isInterval_of_mem {seconds : Binary64} : ∀ {items : List (Bound.Item σ Bound.Passes)},
    Bound.Items.Timed items → Leaf.interval seconds ∈ Bound.Items.leaves items → seconds.IsInterval
  | [], _, h => absurd h (Stream'.Seq.notMem_nil _)
  | _ :: _, htimed, h => by
    rcases Stream'.Seq.of_mem_append h with h | h
    · exact Bound.Item.isInterval_of_mem htimed.1 h
    · exact Bound.Items.isInterval_of_mem htimed.2 h

end

theorem Bound.Schedule.Within.regular {s t : Bound.Schedule σ Bound.Passes} (h : s.Within t) (hs : s.Regular) :
    t.Regular := by
  refine ⟨h.solid hs.solid, ?_⟩
  induction h with
  | self => exact hs.timed
  | inner _ hmem ih => exact Bound.Items.timed_iff.1 ih _ hmem

theorem Bound.Call.isInterval_of_interval {c : Bound.Call σ} {value : Value} {seconds : Binary64}
    (h : c.interval value = .ok seconds) : seconds.IsInterval := by
  unfold Bound.Call.interval at h
  split at h
  · split at h
    · next hgood =>
      cases h
      exact ⟨((Bool.and_eq_true _ _).mp hgood).1, ((Bool.and_eq_true _ _).mp hgood).2⟩
    · cases h
  · cases h

theorem Leaf.isInterval_of_pull {s : Bound.Schedule σ Bound.Passes} (hs : s.toItem.Timed) {leaf : Leaf σ}
    (hleaf : leaf ∈ s.leaves) {w w' : World σ} {seconds : Binary64} (h : leaf.pull w = (.ok seconds, w')) :
    seconds.IsInterval := by
  cases leaf with
  | interval x =>
    cases h
    exact Bound.Item.isInterval_of_mem hs hleaf
  | call c =>
    obtain ⟨value, _, _, h⟩ := Host.bind_eq_ok_iff.1 h
    exact Bound.Call.isInterval_of_interval (congrArg Prod.fst h)

section Cursors

variable {s : Bound.Schedule σ Bound.Passes} {c : Cursor σ}

theorem Cursor.Used.isInterval (h : c.Used s) (hs : s.Regular) {w : World σ} {seconds : Binary64}
    (hnext : (c.next w).1.1 = .ok (some seconds)) : seconds.IsInterval := by
  rcases h.next_cases hs.solid w with ⟨_, hend⟩ | ⟨_, hend⟩ | ⟨leaf, hleaf, _, hpulled⟩
  · rw [hend] at hnext
    cases hnext
  · rw [hend] at hnext
    cases hnext
  · rw [hpulled] at hnext
    rcases hpull : leaf.pull w with ⟨e | x, w'⟩
    · rw [hpull] at hnext
      cases hnext
    · rw [hpull] at hnext
      cases hnext
      exact Leaf.isInterval_of_pull hs.timed hleaf hpull

theorem Cursor.next_of_next? {w : World σ} {seconds : Binary64} (h : (c.next? w).1.1 = some (.ok seconds)) :
    (c.next w).1.1 = .ok (some seconds) := by
  cases hfinished : c.finished with
  | true =>
    rw [next?_of_finished hfinished] at h
    cases h
  | false =>
    rw [next?_of_not_finished hfinished] at h
    rcases hnext : (c.next w).1.1 with e | _ | x <;> rw [hnext] at h <;> cases h
    rfl

theorem World.delays_of_journalWith {w w' : World σ} {made : List (Made σ)} (h : w'.journal = w.journalWith made) :
    w'.delays = w.delays := by
  rw [delays, h, journalWith, Array.toList_append, List.filterMap_append, List.filterMap_map]
  -- what was added to the journal are calls only
  refine (congrArg _ (List.filterMap_eq_nil_iff.2 ?_)).trans (List.append_nil _)
  intro m _
  rfl

theorem World.delays_wait (w : World σ) (seconds : Binary64) : (w.wait seconds).delays = w.delays ++ [seconds] := by
  simp [delays, wait]

/-- A pull of a cursor asks for no delay. -/
theorem Cursor.Used.delays_next (h : c.Used s) (hs : s.Regular) (w : World σ) : (c.next w).2.delays = w.delays := by
  rcases h.next_cases hs.solid w with ⟨_, hnext⟩ | ⟨_, hnext⟩ | ⟨leaf, _, _, hnext⟩
  · rw [hnext]
  · rw [hnext]
  · rw [hnext]
    obtain ⟨_, hjournal, _⟩ := leaf.makes_pull w
    exact World.delays_of_journalWith hjournal

end Cursors

/-! ## Delays -/

/-- From one world to another, no delays were asked for but `good` ones. -/
def World.Asks (good : Binary64 → Prop) (w w' : World σ) : Prop :=
  ∃ asked, w'.delays = w.delays ++ asked ∧ ∀ seconds ∈ asked, good seconds

namespace World.Asks

variable {good : Binary64 → Prop} {w v w' : World σ}

theorem of_eq (h : w'.delays = w.delays) : w.Asks good w' := by
  refine ⟨[], ?_, ?_⟩
  · rw [List.append_nil]
    exact h
  · simp

theorem trans (h : w.Asks good v) (h' : v.Asks good w') : w.Asks good w' := by
  obtain ⟨asked, hdelays, hgood⟩ := h
  obtain ⟨more, hdelays', hgood'⟩ := h'
  refine ⟨asked ++ more, ?_, List.forall_mem_append.2 ⟨hgood, hgood'⟩⟩
  rw [hdelays', hdelays, List.append_assoc]

theorem imp {good' : Binary64 → Prop} (h : w.Asks good w') (himp : ∀ seconds, good seconds → good' seconds) :
    w.Asks good' w' := by
  obtain ⟨asked, hdelays, hgood⟩ := h
  exact ⟨asked, hdelays, fun seconds hseconds => himp seconds (hgood seconds hseconds)⟩

theorem wait {seconds : Binary64} (h : good seconds) : w.Asks good (w.wait seconds) := by
  exact ⟨[seconds], w.delays_wait seconds, List.forall_mem_singleton.2 h⟩

end World.Asks

/-- A delay for an interval, at a pace. -/
def IsPaced (pace : Binary64 → Binary64) (delay : Binary64) : Prop :=
  ∃ interval : Binary64, interval.IsInterval ∧ delay = pace interval

namespace Performance

/-- A performance of a regular statement at a pace, after any pulls and firings. -/
structure Paced (pace : Binary64 → Binary64) (p : Performance σ) : Prop where
  used : ∃ s : Bound.Statement σ Bound.Passes, s.schedule.Regular ∧ p.Used s
  pace_eq : p.pace = pace

variable {pace : Binary64 → Binary64} {p : Performance σ}

theorem paced_start {s : Bound.Statement σ Bound.Passes} (hs : s.schedule.Regular) (pace : Binary64 → Binary64) :
    Paced pace (start s pace) :=
  ⟨⟨s, hs, .start pace⟩, rfl⟩

/-- A pull asks for one delay at most, which is for an interval. -/
theorem Paced.pull (h : Paced pace p) (w : World σ) :
    Paced pace (p.pull w).1.2 ∧ w.Asks (IsPaced pace) (p.pull w).2 := by
  obtain ⟨s, hs, hp⟩ := h.used
  have hused : ∃ s : Bound.Statement σ Bound.Passes, s.schedule.Regular ∧ (p.pull w).1.2.Used s :=
    ⟨s, hs, hp.pull w⟩
  have hdelays := hp.pairs.2.delays_next hs w
  cases hended : p.ended with
  | true =>
    rw [pull_of_ended hended w]
    exact ⟨h, .of_eq rfl⟩
  | false =>
    rcases hnext : p.pairs.cursor.next w with ⟨⟨e | _ | seconds, c⟩, w'⟩ <;> rw [hnext] at hdelays
    · rw [pull_of_error hended hnext] at hused ⊢
      exact ⟨⟨hused, h.pace_eq⟩, .of_eq hdelays⟩
    · rw [pull_of_end hended hnext] at hused ⊢
      exact ⟨⟨hused, h.pace_eq⟩, .of_eq hdelays⟩
    · have hinterval : seconds.IsInterval := hp.pairs.2.isInterval hs (congrArg (·.1.1) hnext)
      rw [pull_of_interval hended hnext] at hused ⊢
      refine ⟨⟨hused, h.pace_eq⟩, .trans (.of_eq hdelays) (.wait ⟨seconds, hinterval, ?_⟩)⟩
      rw [h.pace_eq]

theorem Paced.fire (h : Paced pace p) (w : World σ) :
    Paced pace (p.fire w).1.2 ∧ w.Asks (IsPaced pace) (p.fire w).2 := by
  obtain ⟨s, hs, hp⟩ := h.used
  have hused : ∃ s : Bound.Statement σ Bound.Passes, s.schedule.Regular ∧ (p.fire w).1.2.Used s :=
    ⟨s, hs, hp.fire w⟩
  obtain ⟨_, hjournal, _⟩ := p.pairs.action.makes_invoke w
  have hdelays := World.delays_of_journalWith hjournal
  rcases hinvoke : p.pairs.action.invoke w with ⟨e | value, w'⟩ <;> rw [hinvoke] at hdelays
  · rw [fire_of_error hinvoke] at hused ⊢
    exact ⟨⟨hused, h.pace_eq⟩, .of_eq hdelays⟩
  · rw [fire_of_ok hinvoke] at hused ⊢
    exact ⟨⟨hused, h.pace_eq⟩, .of_eq hdelays⟩

theorem Paced.turn (h : Paced pace p) (w : World σ) :
    Paced pace (p.turn w).1.2 ∧ w.Asks (IsPaced pace) (p.turn w).2 := by
  obtain ⟨hpulled, hasks⟩ := h.pull w
  rw [Performance.turn, state_bind_apply]
  rcases hpull : p.pull w with ⟨⟨_ | e | seconds, p'⟩, w'⟩ <;> rw [hpull] at hpulled hasks
  · exact ⟨hpulled, hasks⟩
  · exact ⟨hpulled, hasks⟩
  · obtain ⟨hfired, hasks'⟩ := hpulled.fire w'
    exact ⟨hfired, hasks.trans hasks'⟩

theorem Paced.run (h : Paced pace p) (settings : Settings) (turns fired : Nat) (w : World σ) :
    w.Asks (IsPaced pace) (p.run settings turns fired w).2 := by
  induction turns generalizing p fired w with
  | zero =>
    rw [Performance.run]
    split
    · exact .of_eq rfl
    · exact .of_eq rfl
  | succ turns ih =>
    rw [Performance.run]
    split
    · exact .of_eq rfl
    · obtain ⟨hturned, hasks⟩ := h.turn w
      rw [state_bind_apply]
      rcases hturn : p.turn w with ⟨⟨_ | e | value, p'⟩, w'⟩ <;> rw [hturn] at hturned hasks
      · exact hasks
      · exact hasks
      · exact hasks.trans (ih hturned (fired + 1) w')

end Performance

/-! ## Runs side by side -/

/-- Whatever comes due, and whatever goes on waiting, was waiting. -/
theorem mem_of_nextDue {waiting rest : List (Nat × α)} {due : Nat} {ready : List α}
    (h : nextDue waiting = some (due, ready, rest)) :
    (∀ a ∈ ready, (due, a) ∈ waiting) ∧ ∀ entry ∈ rest, entry ∈ waiting := by
  obtain ⟨_, _, h⟩ := Option.map_eq_some_iff.1 h
  cases h
  constructor
  · intro a ha
    obtain ⟨⟨time, _⟩, hmem, rfl⟩ := List.mem_map.1 ha
    obtain ⟨hmem, htime⟩ := List.mem_filter.1 hmem
    rw [← eq_of_beq htime]
    exact hmem
  · intro entry hentry
    exact (List.mem_filter.1 hentry).1

namespace Ensemble

/-- The performances of some runs are all of regular statements, at one pace. -/
structure Paced (pace : Binary64 → Binary64) (e : Ensemble σ) : Prop where
  queue : ∀ t ∈ e.queue, t.performance.Paced pace
  waiting : ∀ entry ∈ e.waiting, entry.2.performance.Paced pace

theorem paced_start {statements : List (Bound.Statement σ Bound.Passes)}
    (hs : ∀ s ∈ statements, s.schedule.Regular) (settings : Settings) :
    Paced settings.pace (start statements settings) where
  queue := by
    intro t ht
    obtain ⟨i, hi, rfl⟩ := List.mem_mapIdx.1 ht
    exact Performance.paced_start (hs _ (List.getElem_mem hi)) settings.pace
  waiting := by
    intro entry hentry
    cases hentry

variable {pace : Binary64 → Binary64} {e : Ensemble σ}

/-- A step pulls or fires the performance in front of the queue, or lets time pass. -/
theorem Paced.step (h : Paced pace e) (clock : Clock) (settings : Settings) (w : World σ) :
    Paced pace (e.step clock settings w).1 ∧ w.Asks (IsPaced pace) (e.step clock settings w).2 := by
  cases hqueue : e.queue with
  | nil =>
    rw [Ensemble.step, hqueue]
    cases hdue : nextDue e.waiting with
    | none => exact ⟨h, .of_eq rfl⟩
    | some found =>
      obtain ⟨hready, hwaiting⟩ := mem_of_nextDue hdue
      exact ⟨⟨fun t ht => h.waiting _ (hready t ht), fun entry hentry => h.waiting entry (hwaiting entry hentry)⟩,
        .of_eq rfl⟩
  | cons t queue =>
    have hall := h.queue
    rw [hqueue, List.forall_mem_cons] at hall
    obtain ⟨ht, hrest⟩ := hall
    rw [Ensemble.step, hqueue]
    dsimp only
    split
    · obtain ⟨hfired, hasks⟩ := ht.fire w
      rw [state_bind_apply]
      rcases hfire : t.performance.fire w with ⟨⟨e' | value, p⟩, w'⟩ <;> rw [hfire] at hfired hasks
      · exact ⟨⟨hrest, h.waiting⟩, hasks⟩
      · exact ⟨⟨List.forall_mem_cons.2 ⟨hfired, hrest⟩, h.waiting⟩, hasks⟩
    · split
      · exact ⟨⟨hrest, h.waiting⟩, .of_eq rfl⟩
      · obtain ⟨hpulled, hasks⟩ := ht.pull w
        rw [state_bind_apply]
        rcases hpull : t.performance.pull w with ⟨⟨_ | e' | seconds, p⟩, w'⟩ <;> rw [hpull] at hpulled hasks
        · exact ⟨⟨hrest, h.waiting⟩, hasks⟩
        · exact ⟨⟨hrest, h.waiting⟩, hasks⟩
        · dsimp only
          split
          · exact ⟨⟨List.forall_mem_cons.2 ⟨hpulled, hrest⟩, h.waiting⟩, hasks⟩
          · refine ⟨⟨hrest, List.forall_mem_append.2 ⟨h.waiting, ?_⟩⟩, hasks⟩
            exact List.forall_mem_singleton.2 hpulled

theorem Paced.run (h : Paced pace e) (clock : Clock) (settings : Settings) (steps : Nat) (w : World σ) :
    w.Asks (IsPaced pace) (e.run clock settings steps w).2 := by
  induction steps generalizing e w with
  | zero => exact .of_eq rfl
  | succ steps ih =>
    rw [Ensemble.run]
    split
    · exact .of_eq rfl
    · obtain ⟨hstep, hasks⟩ := h.step clock settings w
      exact hasks.trans (ih hstep (e.step clock settings w).2)

end Ensemble

/-! ## Programs that were loaded -/

/-- A delay that a run may ask for: an interval times the scale, which is not negative. It may be infinite, but only if
the exact product is greater than every finite number. -/
structure Settings.Allows (settings : Settings) (delay : Binary64) : Prop where
  ne_nan : delay ≠ .nan
  nonneg : Binary64.zero.le delay = true
  scaled : ∃ interval : Binary64, interval.IsInterval ∧ delay = interval.mul settings.scale ∧
    (delay.isFinite = true ∨ delay = .infinity false ∧
      (Magnitude.greatest.units * unitsPerOne : Nat) < interval.units * settings.scale.units)

theorem Settings.allows_of_isPaced {settings : Settings} (hvalid : settings.isValid = true) {delay : Binary64}
    (h : IsPaced settings.pace delay) : settings.Allows delay := by
  obtain ⟨interval, hinterval, rfl⟩ := h
  obtain ⟨hfinite, hscale⟩ := (Bool.and_eq_true _ _).mp hvalid
  obtain ⟨hnonneg, hoverflow⟩ := hinterval.mul ⟨hfinite, hscale⟩
  refine ⟨?_, hnonneg, interval, hinterval, rfl, hoverflow⟩
  intro hnan
  rw [Settings.pace] at hnan
  rw [hnan] at hnonneg
  cases hnonneg

/-- Every interval that a cursor over a program that was loaded hands out, in whatever worlds it is pulled, is finite
and not negative; and with settings that make sense, every delay that is asked for, by the run of one of its statements
or by runs of them side by side, is not negative. -/
theorem isInterval_of_load {scheduler : Scheduler σ} {source : String} {w₀ w₁ : World σ}
    {bound : List (Bound.Statement σ Bound.Passes)} (hload : scheduler.load source w₀ = (.ok bound, w₁)) :
    (∀ s ∈ bound, ∀ t, s.schedule.Within t → ∀ c : Cursor σ, c.Used t → ∀ w seconds,
      (c.next w).1.1 = .ok (some seconds) ∨ (c.next? w).1.1 = some (.ok seconds) →
        seconds.isFinite = true ∧ Binary64.zero.le seconds = true) ∧
      ∀ settings : Settings, settings.isValid = true →
        (∀ s ∈ bound, ∀ turns (w : World σ), w.Asks settings.Allows (s.run settings turns w).2) ∧
        ∀ statements : List (Bound.Statement σ Bound.Passes), (∀ s ∈ statements, s ∈ bound) →
          ∀ clock steps (w : World σ),
            w.Asks settings.Allows ((Ensemble.start statements settings).run clock settings steps w).2 := by
  have hregular : ∀ s ∈ bound, s.schedule.Regular := fun s hs => Scheduler.regular_of_load hload hs
  refine ⟨?_, ?_⟩
  · intro s hs t ht c hc w seconds hnext
    have hinterval : seconds.IsInterval := by
      rcases hnext with hnext | hnext?
      · exact hc.isInterval (ht.regular (hregular s hs)) hnext
      · exact hc.isInterval (ht.regular (hregular s hs)) (Cursor.next_of_next? hnext?)
    exact ⟨hinterval.finite, hinterval.nonneg⟩
  · intro settings hvalid
    have hallows : ∀ {w w' : World σ}, w.Asks (IsPaced settings.pace) w' → w.Asks settings.Allows w' :=
      fun h => h.imp fun delay => Settings.allows_of_isPaced hvalid
    constructor
    · intro s hs turns w
      exact hallows ((Performance.paced_start (hregular s hs) settings.pace).run settings turns 0 w)
    · intro statements hstatements clock steps w
      have hpaced := Ensemble.paced_start (fun s hs => hregular s (hstatements s hs)) settings
      exact hallows (hpaced.run clock settings steps w)

/-- `ping()@[1, tick()]:2`, as a text. -/
def Sample.tickingText : String :=
  "\n".intercalate ([Sample.ticking (.times 2)].map Statement.text)

theorem isInterval_of_load_tick :
    Scheduler.load ⟨Sample.actions, Sample.functions⟩ Sample.tickingText (.fresh 0)
        = (.ok [Sample.tickingTwice], .fresh 0) ∧
      (⟨.ofInt 3, some 5⟩ : Settings).isValid = true ∧
      World.Asks (Settings.Allows ⟨.ofInt 3, some 5⟩) (.fresh 7)
        (Sample.tickingTwice.run ⟨.ofInt 3, some 5⟩ 9 (.fresh 7)).2 := by
  have hproper : (Sample.ticking (.times 2)).Proper := by
    refine ⟨⟨by decide, trivial⟩, ⟨List.cons_ne_nil _ _, trivial⟩, ?_, ?_, trivial⟩
    · exact show 0 ≤ (1 : Int64).toInt by decide
    · exact ⟨by decide, trivial⟩
  have hparse : parseProgram Sample.tickingText = .ok [Sample.ticking (.times 2)] := by
    refine (readsAs_intercalate (List.cons_ne_nil _ _) (List.forall_mem_singleton.2 hproper) ?_).ok ?_
    · exact List.forall_mem_singleton.2 rfl
    · exact List.forall_mem_singleton.2 (by decide)
  have hload : Scheduler.load ⟨Sample.actions, Sample.functions⟩ Sample.tickingText (.fresh 0)
      = (.ok [Sample.tickingTwice], .fresh 0) := by
    rw [Scheduler.load, readProgram, hparse]
    rfl
  have hvalid : (⟨.ofInt 3, some 5⟩ : Settings).isValid = true := by decide +kernel
  exact ⟨hload, hvalid, ((isInterval_of_load hload).2 _ hvalid).1 _ (List.mem_singleton_self _) 9 _⟩

end Cadence
