import Cadence.Proofs.Bound.Sites
import Cadence.Proofs.Run.Flattening
import Cadence.Run.Performance

/-!
# Numbers of passes are asked for once

Binding a program without fault asks the calls that the program has for numbers of passes, in the order of
`Statement.passesCalls`, and calls nothing else. Afterwards they are gone: whatever is pulled and performed, in any
order, calls the program's actions and the calls in the places of items only (`Bound.Statement.CallsOnly`). The key
fact is that a cursor is finished, or has some leaves of its schedule still to hand out (`Cursor.Used.cases`).
-/

namespace Cadence

variable {σ : Type} {actions functions : Registry σ}

/-! ## The calls for numbers of passes in a program -/

/-- The call for a number of passes, if it is one. -/
def Repeat.calls : Repeat → List Call
  | .times _ => []
  | .forever => []
  | .call c => [c]

mutual

/-- The calls for numbers of passes within an item: those of its items, and then its own. -/
def Item.passesCalls : Item → List Call
  | .interval _ => []
  | .call _ => []
  | .schedule items passes => Items.passesCalls items ++ passes.calls
termination_by structural a => a

def Items.passesCalls : List Item → List Call
  | [] => []
  | a :: rest => a.passesCalls ++ Items.passesCalls rest
termination_by structural a => a

end

def Statement.passesCalls (s : Statement) : List Call :=
  s.schedule.toItem.passesCalls

theorem Bound.Items.passesCalls_orZero (items : List (Bound.Item σ (Bound.Repeat σ))) :
    Bound.Items.passesCalls (Bound.orZero items) = Bound.Items.passesCalls items := by
  unfold Bound.orZero
  split
  · next h =>
    rw [List.isEmpty_iff.1 h]
    rfl
  · rfl

theorem Repeat.mapM_calls {s : Schedule} {passes : Repeat} {b : Bound.Repeat σ}
    (h : passes.bound functions s = .ok b) : passes.calls.mapM (Call.bound functions functions) = .ok b.calls := by
  cases passes with
  | times n =>
    rw [Repeat.bound] at h
    split at h
    · cases h
    · cases h
      rfl
  | forever =>
    cases h
    rfl
  | call c =>
    obtain ⟨c', hc, h⟩ := result_bind_eq_ok_iff.1 h
    cases h
    simp only [Repeat.calls, Bound.Repeat.calls, List.mapM_cons, List.mapM_nil, hc]
    rfl

mutual

private theorem Item.mapM_passesCalls : ∀ {a : Item} {b}, a.bound functions = .ok b →
    a.passesCalls.mapM (Call.bound functions functions) = .ok b.passesCalls
  | .interval _, _, h => by
    cases h
    rfl
  | .call _, _, h => by
    obtain ⟨_, _, h⟩ := result_bind_eq_ok_iff.1 h
    cases h
    rfl
  | .schedule items passes, _, h => by
    obtain ⟨items', hi, h⟩ := result_bind_eq_ok_iff.1 h
    obtain ⟨passes', hp, h⟩ := result_bind_eq_ok_iff.1 h
    cases h
    rw [Item.passesCalls, Bound.Item.passesCalls, Bound.Items.passesCalls_orZero]
    exact mapM_append_of_ok (Items.mapM_passesCalls hi) (Repeat.mapM_calls hp)

private theorem Items.mapM_passesCalls : ∀ {items : List Item} {b}, Items.bound functions items = .ok b →
    (Items.passesCalls items).mapM (Call.bound functions functions) = .ok (Bound.Items.passesCalls b)
  | [], _, h => by
    cases h
    rfl
  | _ :: _, _, h => by
    obtain ⟨a', ha, h⟩ := result_bind_eq_ok_iff.1 h
    obtain ⟨rest', hr, h⟩ := result_bind_eq_ok_iff.1 h
    cases h
    exact mapM_append_of_ok (Item.mapM_passesCalls ha) (Items.mapM_passesCalls hr)

end

private theorem Statement.mapM_passesCalls {s : Statement} {b} (h : s.bound actions functions = .ok b) :
    s.passesCalls.mapM (Call.bound functions functions) = .ok b.schedule.toItem.passesCalls := by
  obtain ⟨action, _, h⟩ := result_bind_eq_ok_iff.1 h
  obtain ⟨schedule, hs, h⟩ := result_bind_eq_ok_iff.1 h
  cases h
  obtain ⟨items, hi, hs⟩ := result_bind_eq_ok_iff.1 hs
  obtain ⟨passes, hp, hs⟩ := result_bind_eq_ok_iff.1 hs
  cases hs
  show (Items.passesCalls s.schedule.items ++ s.schedule.passes.calls).mapM (Call.bound functions functions)
    = .ok (Bound.Items.passesCalls (Bound.orZero items) ++ passes.calls)
  rw [Bound.Items.passesCalls_orZero]
  exact mapM_append_of_ok (Items.mapM_passesCalls hi) (Repeat.mapM_calls hp)

/-- The calls for numbers of passes in a bound program are those of the program, looked up among the functions. -/
theorem mapM_passesCalls {program : List Statement} {looked}
    (h : program.mapM (Statement.bound actions functions) = .ok looked) :
    (program.flatMap Statement.passesCalls).mapM (Call.bound functions functions)
      = .ok (looked.flatMap fun s => s.schedule.toItem.passesCalls) := by
  induction program generalizing looked with
  | nil =>
    cases h
    rfl
  | cons s rest ih =>
    rw [List.mapM_cons] at h
    obtain ⟨s', hs, h⟩ := result_bind_eq_ok_iff.1 h
    obtain ⟨rest', hr, h⟩ := result_bind_eq_ok_iff.1 h
    cases h
    exact mapM_append_of_ok (Statement.mapM_passesCalls hs) (ih hr)

/-! ## Pulls and firings -/

namespace Cursor

/-- A cursor over `s` after any number of pulls, in whatever worlds they were made and whatever came of them. -/
inductive Used (s : Bound.Schedule σ Bound.Passes) : Cursor σ → Prop
  | start : Used s (Cursor.start s)
  | next {c : Cursor σ} (w : World σ) : Used s c → Used s (c.next w).1.2

theorem next_of_finished {c : Cursor σ} (h : c.finished = true) (w : World σ) :
    c.next w = ((.error .exhausted, c), w) := by
  rw [next, if_pos h]

/-- A cursor is finished, or all its pulls gave an interval. -/
theorem Used.cases {s : Bound.Schedule σ Bound.Passes} (hs : s.Solid) {c : Cursor σ} (h : Used s c) :
    c.finished = true ∨ ∃ k, Reached s k c := by
  induction h with
  | start => exact .inr ⟨0, .start⟩
  | @next c w _ ih =>
    rcases ih with hfinished | ⟨k, hk⟩
    · rw [next_of_finished hfinished]
      exact .inl hfinished
    · cases hrest : s.leaves.drop k with
      | nil =>
        obtain ⟨c', hnext, hfinished⟩ := (hrest ▸ hk.stands hs : c.Stands s Stream'.Seq.nil).next_nil w
        rw [hnext]
        exact .inl hfinished
      | cons leaf rest =>
        rcases (hrest ▸ hk.stands hs : c.Stands s (Stream'.Seq.cons leaf rest)).next_cons w with
          ⟨seconds, w', c', _, hnext, _⟩ | ⟨e, w', c', _, hnext, hfinished⟩
        · rw [hnext]
          exact .inr ⟨k + 1, .pull hk hnext⟩
        · rw [hnext]
          exact .inl hfinished

/-- What a pull comes to: a finished cursor has nothing more to say, and the others find out that no leaf is left, or
pull one. -/
theorem Used.next_cases {s : Bound.Schedule σ Bound.Passes} (hs : s.Solid) {c : Cursor σ} (h : Used s c) (w : World σ) :
    (c.finished = true ∧ c.next w = ((.error .exhausted, c), w)) ∨ (∃ c', c.next w = ((.ok none, c'), w)) ∨
      ∃ leaf ∈ s.leaves, ∃ c', c.next w = (((leaf.pull w).1.map some, c'), (leaf.pull w).2) := by
  rcases h.cases hs with hfinished | ⟨k, hk⟩
  · exact .inl ⟨hfinished, next_of_finished hfinished w⟩
  cases hrest : s.leaves.drop k with
  | nil =>
    obtain ⟨c', hnext, _⟩ := (hrest ▸ hk.stands hs : c.Stands s Stream'.Seq.nil).next_nil w
    exact .inr (.inl ⟨c', hnext⟩)
  | cons leaf rest =>
    refine .inr (.inr ⟨leaf, Stream'.Seq.get?_mem (get?_of_drop_eq_cons hrest), ?_⟩)
    rcases (hrest ▸ hk.stands hs : c.Stands s (Stream'.Seq.cons leaf rest)).next_cons w with
      ⟨seconds, w', c', hpull, hnext, _⟩ | ⟨e, w', c', hpull, hnext, _⟩
    · rw [hpull]
      exact ⟨c', hnext⟩
    · rw [hpull]
      exact ⟨c', hnext⟩

/-- A pull leaves the world alone or makes one call, which stands in the place of an item. -/
theorem Used.world_next {s : Bound.Schedule σ Bound.Passes} (hs : s.Solid) {c : Cursor σ} (h : Used s c)
    (w : World σ) :
    (c.next w).2 = w ∨ ∃ call ∈ s.toItem.intervalCalls, (c.next w).2 = (call.invoke w).2 := by
  rcases h.next_cases hs w with ⟨_, hnext⟩ | ⟨c', hnext⟩ | ⟨leaf, hleaf, c', hnext⟩
  · rw [hnext]
    exact .inl rfl
  · rw [hnext]
    exact .inl rfl
  · rw [hnext]
    cases leaf with
    | interval seconds => exact .inl rfl
    | call call =>
      refine .inr ⟨call, Bound.Item.mem_intervalCalls hleaf, ?_⟩
      rw [Leaf.pull, Host.bind_apply]
      rcases call.invoke w with ⟨_ | _, _⟩ <;> rfl

end Cursor

namespace Performance

/-- A performance of `s` after any pulls and firings, in whatever order and worlds they came. -/
inductive Used (s : Bound.Statement σ Bound.Passes) : Performance σ → Prop
  | start (pace : Binary64 → Binary64) : Used s (Performance.start s pace)
  | pull {p : Performance σ} (w : World σ) : Used s p → Used s (p.pull w).1.2
  | fire {p : Performance σ} (w : World σ) : Used s p → Used s (p.fire w).1.2

section Pull

variable {p : Performance σ} {c : Cursor σ} {w w' : World σ}

theorem pull_of_ended (h : p.ended = true) (w : World σ) : p.pull w = ((.nothing, p), w) := by
  rw [pull, h]
  rfl

theorem pull_of_end (h : p.ended = false) (hnext : p.pairs.cursor.next w = ((.ok none, c), w')) :
    p.pull w = ((.nothing, { p with pairs := { p.pairs with cursor := c }, ended := true }), w') := by
  simp only [pull, h, Bool.false_eq_true, if_false, Pairs.next, state_bind_apply, state_pure_apply, hnext]
  rfl

theorem pull_of_error {e : Error} (h : p.ended = false) (hnext : p.pairs.cursor.next w = ((.error e, c), w')) :
    p.pull w = ((.broken e, { p with pairs := { p.pairs with cursor := c }, ended := true }), w') := by
  simp only [pull, h, Bool.false_eq_true, if_false, Pairs.next, state_bind_apply, state_pure_apply, hnext]
  rfl

/-- With an interval, a pull asks for the delay. -/
theorem pull_of_interval {seconds : Binary64} (h : p.ended = false)
    (hnext : p.pairs.cursor.next w = ((.ok (some seconds), c), w')) :
    p.pull w = ((.due (p.pace seconds), { p with pairs := { p.pairs with cursor := c } }),
      w'.wait (p.pace seconds)) := by
  simp only [pull, h, Bool.false_eq_true, if_false, Pairs.next, state_bind_apply, state_pure_apply, hnext]
  rfl

end Pull

/-- A pull of a performance is one of its cursor, with a delay asked for if there is an interval. -/
theorem pull_cases (p : Performance σ) (w : World σ) :
    p.pull w = ((.nothing, p), w) ∨
      ((p.pull w).1.2.pairs = { p.pairs with cursor := (p.pairs.cursor.next w).1.2 } ∧
        ((p.pull w).2 = (p.pairs.cursor.next w).2 ∨
          ∃ seconds, (p.pull w).2 = (p.pairs.cursor.next w).2.wait seconds)) := by
  cases hended : p.ended with
  | true => exact .inl (pull_of_ended hended w)
  | false =>
    right
    rcases hnext : p.pairs.cursor.next w with ⟨⟨e | _ | seconds, c⟩, w'⟩
    · rw [pull_of_error hended hnext]
      exact ⟨rfl, .inl rfl⟩
    · rw [pull_of_end hended hnext]
      exact ⟨rfl, .inl rfl⟩
    · rw [pull_of_interval hended hnext]
      exact ⟨rfl, .inr ⟨_, rfl⟩⟩

section Fire

variable {p : Performance σ} {w w' : World σ}

theorem fire_of_ok {value : Value} (h : p.pairs.action.invoke w = (.ok value, w')) :
    p.fire w = ((.ok value, p), w') := by
  simp only [fire, state_bind_apply, state_pure_apply, ExceptT.run, h]

theorem fire_of_error {e : Error} (h : p.pairs.action.invoke w = (.error e, w')) :
    p.fire w = ((.error e, { p with ended := true }), w') := by
  simp only [fire, state_bind_apply, state_pure_apply, ExceptT.run, h]

end Fire

theorem fire_cases (p : Performance σ) (w : World σ) :
    (p.fire w).1.2.pairs = p.pairs ∧ (p.fire w).2 = (p.pairs.action.invoke w).2 := by
  rcases h : p.pairs.action.invoke w with ⟨e | value, w'⟩
  · rw [fire_of_error h]
    exact ⟨rfl, rfl⟩
  · rw [fire_of_ok h]
    exact ⟨rfl, rfl⟩

/-- A performance keeps the action of its statement, and its cursor goes through the statement's schedule. -/
theorem Used.pairs {s : Bound.Statement σ Bound.Passes} {p : Performance σ} (h : Used s p) :
    p.pairs.action = s.action ∧ p.pairs.cursor.Used s.schedule := by
  induction h with
  | start pace => exact ⟨rfl, .start⟩
  | @pull p w _ ih =>
    rcases p.pull_cases w with hpull | ⟨hpairs, _⟩
    · rw [hpull]
      exact ih
    · rw [hpairs]
      exact ⟨ih.1, .next w ih.2⟩
  | @fire p w _ ih =>
    rw [(p.fire_cases w).1]
    exact ih

end Performance

/-- What a bound statement calls, however it is pulled and performed: its action, which is that of the program, and
the calls that the program has in the places of items. -/
structure Bound.Statement.CallsOnly (actions functions : Registry σ) (source : Cadence.Statement)
    (s : Bound.Statement σ Bound.Passes) : Prop where
  action : source.action.bound actions functions = .ok s.action
  intervals : source.schedule.toItem.intervalCalls.mapM (Call.bound functions functions)
    = .ok s.schedule.toItem.intervalCalls
  next : ∀ t, s.schedule.Within t → ∀ c : Cursor σ, c.Used t → ∀ w,
    (c.next w).2 = w ∨ ∃ call ∈ s.schedule.toItem.intervalCalls, (c.next w).2 = (call.invoke w).2
  pull : ∀ p : Performance σ, p.Used s → ∀ w, ∃ v,
    (v = w ∨ ∃ call ∈ s.schedule.toItem.intervalCalls, v = (call.invoke w).2) ∧
      ((p.pull w).2 = v ∨ ∃ seconds, (p.pull w).2 = v.wait seconds)
  fire : ∀ p : Performance σ, p.Used s → ∀ w, (p.fire w).2 = (s.action.invoke w).2

theorem Bound.Statement.Binds.callsOnly {source : Cadence.Statement} {s : Bound.Statement σ Bound.Passes}
    (h : s.Binds actions functions source) : s.CallsOnly actions functions source where
  action := h.action
  intervals := h.mapM_intervalCalls
  next := by
    intro t ht c hc w
    rcases hc.world_next (ht.solid h.solid) w with hw | ⟨call, hcall, hw⟩
    · exact .inl hw
    · exact .inr ⟨call, ht.mem_intervalCalls hcall, hw⟩
  pull := by
    intro p hp w
    rcases p.pull_cases w with hpull | ⟨_, hworld⟩
    · refine ⟨w, .inl rfl, .inl ?_⟩
      rw [hpull]
    · exact ⟨(p.pairs.cursor.next w).2, hp.pairs.2.world_next h.solid w, hworld⟩
  fire := by
    intro p hp w
    rw [(p.fire_cases w).2, hp.pairs.1]

/-! ## Binding a program without fault -/

/-- A program without fault asks its calls for numbers of passes, each once and in order, and is bound with the answers
in their places. Nothing but these calls and the calls within their arguments is called by that; if one of them fails,
its error is the error and none of the others is asked; and none of them is called again by what comes later. -/
theorem bind_eq_ask (ha : actions.kind = .action) (hf : functions.kind = .function) {program : List Statement}
    (hsound : ∀ site ∈ program.flatMap Statement.sites, site.fault? actions functions = none) :
    ∃ looked asked, program.mapM (Statement.bound actions functions) = .ok looked ∧
      (program.flatMap Statement.passesCalls).mapM (Call.bound functions functions) = .ok asked ∧
      Statements.bind actions functions program = (do
        let counts ← asked.mapM Bound.Call.ask
        return Bound.Statements.fill looked counts) ∧
      Makes (asked.flatMap Bound.Call.callees) (Statements.bind actions functions program) ∧
      (∀ w w' e, Statements.bind actions functions program w = (.error e, w') → e.OfCall ∧
        ∃ before c after counts v, asked = before ++ c :: after ∧
          (before.mapM Bound.Call.ask : Host σ _) w = (.ok counts, v) ∧ c.ask v = (.error e, w')) ∧
      ∀ w w' bound, Statements.bind actions functions program w = (.ok bound, w') →
        ∀ s ∈ bound, ∃ source ∈ program, s.CallsOnly actions functions source := by
  have hfault : firstFault actions functions (program.flatMap Statement.sites) = none :=
    List.findSome?_eq_none_iff.2 hsound
  obtain ⟨looked, hlooked, hbind⟩ := exists_looked_of_firstFault ha hf hfault
  have hasks := Bound.Statements.asks looked
  rw [← hbind] at hasks
  refine ⟨looked, _, hlooked, mapM_passesCalls hlooked, hasks.eq, hasks.makes, ?_, ?_⟩
  · intro w w' e h
    obtain ⟨_, _, _, _, hcall⟩ := hasks.makes w
    refine ⟨hcall e (congrArg Prod.fst h), ?_⟩
    rw [hasks.eq] at h
    rcases Host.bind_eq_error_iff.1 h with h | ⟨_, _, _, h⟩
    · exact Host.mapM_eq_error_iff.1 h
    · cases h
  · intro w w' bound h s hs
    obtain ⟨source, hsource, hbinds⟩ := exists_binds_of_bind h hs
    exact ⟨source, hsource, hbinds.callsOnly⟩

theorem bind_eq_ask_tick :
    Sample.actions.kind = .action ∧ Sample.functions.kind = .function ∧
      (∀ site ∈ [Sample.ticking (.call ⟨"tick", []⟩)].flatMap Statement.sites,
        site.fault? Sample.actions Sample.functions = none) ∧
      Makes [Sample.tick] (Statements.bind Sample.actions Sample.functions [Sample.ticking (.call ⟨"tick", []⟩)]) := by
  have hactions : Sample.actions.kind = .action := rfl
  have hfunctions : Sample.functions.kind = .function := rfl
  have hsound : ∀ site ∈ [Sample.ticking (.call ⟨"tick", []⟩)].flatMap Statement.sites,
      site.fault? Sample.actions Sample.functions = none := List.findSome?_eq_none_iff.1 rfl
  obtain ⟨looked, asked, _, hasked, _, hmakes, _⟩ := bind_eq_ask hactions hfunctions hsound
  have htick : asked = [Sample.tickCall] := by
    cases hasked
    rfl
  rw [htick] at hmakes
  exact ⟨hactions, hfunctions, hsound, hmakes⟩

end Cadence
