import Cadence.Proofs.Cli.Sessions
import Cadence.Proofs.Run.Intervals
import Cadence.Proofs.Run.Isolation
import Cadence.Proofs.Run.Succession

/-!
# Scales

Runs take their time scale as it is. Whatever the scale, also if it is negative, infinite or "not a number", a run calls
the same and comes to the same as at the program's own pace, and only the delays that it asks for are scaled. That is
because a computation that hands delays out to a pace shadows the one that keeps them (`Shadows`), pull by pull and
firing by firing, for one statement (`Performance.shadows_run`) and for several (`Ensemble.shadows_run`). No such run is
idle: its first pull already calls something or asks for a delay (`Bound.Statement.size_lt_run`,
`Ensemble.size_lt_run`). All delays are non-negative exactly if the scale makes sense (`Settings.isValid_iff`), but only
the command line asks whether it does (`Cli.perform_of_not_isValid`).
-/

namespace Cadence

variable {σ α β γ δ : Type}

/-! ## Shadows -/

/-- What happened, with a pace for the delays. -/
def Event.retimed (pace : Binary64 → Binary64) : Event σ → Event σ
  | .called c arguments => .called c arguments
  | .waited seconds => .waited (pace seconds)

/-- A world after some more happened. -/
def World.after (w : World σ) (state : σ) (events : List (Event σ)) : World σ :=
  ⟨state, w.journal ++ events.toArray⟩

theorem World.after_nil (w : World σ) : w.after w.state [] = w := by
  simp [after]

theorem World.after_after (w : World σ) (state state' : σ) (events events' : List (Event σ)) :
    (w.after state events).after state' events' = w.after state' (events ++ events') := by
  simp [after, Array.append_assoc]

/-- Begun in the same state, two computations leave the same state and do the same, except that the delays of the second
one are at a pace. The result of the second one is found from that of the first one. -/
def Shadows (pace : Binary64 → Binary64) (g : α → β) (m : StateM (World σ) α) (n : StateM (World σ) β) : Prop :=
  ∀ w v, w.state = v.state → ∃ a state events,
    m w = (a, w.after state events) ∧ n v = (g a, v.after state (events.map (Event.retimed pace)))

namespace Shadows

variable {pace : Binary64 → Binary64}

theorem pure {g : α → β} {a : α} {b : β} (h : g a = b) :
    Shadows pace g (pure a : StateM (World σ) α) (pure b) := by
  subst h
  intro w v hstate
  refine ⟨a, w.state, [], ?_, ?_⟩
  · rw [World.after_nil]
    rfl
  · rw [hstate, List.map_nil, World.after_nil]
    rfl

theorem bind {g : α → β} {g' : γ → δ} {m : StateM (World σ) α} {n : StateM (World σ) β}
    {f : α → StateM (World σ) γ} {f' : β → StateM (World σ) δ} (h : Shadows pace g m n)
    (hf : ∀ a, Shadows pace g' (f a) (f' (g a))) : Shadows pace g' (m >>= f) (n >>= f') := by
  intro w v hstate
  obtain ⟨a, state, events, hm, hn⟩ := h w v hstate
  obtain ⟨c, state', more, hfa, hfa'⟩ :=
    hf a (w.after state events) (v.after state (events.map (Event.retimed pace))) rfl
  refine ⟨c, state', events ++ more, ?_, ?_⟩
  · rw [state_bind_apply, hm, hfa, World.after_after]
  · rw [state_bind_apply, hn, hfa', World.after_after, List.map_append]

theorem wait (pace : Binary64 → Binary64) (seconds : Binary64) :
    Shadows pace id (modify (·.wait seconds) : StateM (World σ) Unit) (modify (·.wait (pace seconds))) := by
  intro w v hstate
  refine ⟨(), w.state, [.waited seconds], ?_, ?_⟩
  · show ((), w.wait seconds) = _
    simp [World.wait, World.after]
  · show ((), v.wait (pace seconds)) = _
    simp [World.wait, World.after, Event.retimed, hstate]

/-! ### Computations of the host -/

theorem host_bind {m : Host σ α} {f : α → Host σ β} (hm : Shadows pace id m.run m.run)
    (hf : ∀ a, Shadows pace id (f a).run (f a).run) : Shadows pace id (m >>= f).run (m >>= f).run := by
  rw [ExceptT.run_bind]
  refine hm.bind fun result => ?_
  cases result with
  | ok a => exact hf a
  | error e => exact pure rfl

/-- What a computation of the host does depends on the state of the world only, and no delay is asked for by it. -/
theorem closed (pace : Binary64 → Binary64) : Host.Closed fun _ (m : Host σ _) => Shadows pace id m.run m.run :=
  ⟨fun _ => pure rfl, host_bind⟩

theorem calling (pace : Binary64 → Binary64) (node : Bound.Call σ) :
    Host.Closed.Calling (fun _ (m : Host σ _) => Shadows pace id m.run m.run) node := by
  intro values w v hstate
  rcases hact : node.callable.act values v.state with ⟨outcome, state⟩
  simp only [ExceptT.run, Callable.call, World.call, hstate, hact]
  cases outcome <;> exact ⟨_, state, [.called node.callable values], rfl, rfl⟩

theorem invoke (pace : Binary64 → Binary64) (c : Bound.Call σ) : Shadows pace id c.invoke.run c.invoke.run :=
  (closed pace).invoke fun node _ => calling pace node

end Shadows

/-! ## Cursors -/

section Closed

variable {P : ∀ α : Type, Host σ α → Prop}

/-- A step of a frame has a property if calling has it. -/
theorem Host.Closed.step (hP : Host.Closed P) (hcalling : ∀ node, Calling P node) (f : Frame σ) : P _ f.step.2 := by
  have hreach : ∀ item, P _ (Frame.reach item) := by
    intro item
    cases item with
    | interval seconds => exact hP.pure _
    | call c =>
      exact hP.bind (hP.invoke fun node _ => hcalling node) fun value =>
        hP.bind (hP.ofResult (c.interval value)) fun seconds => hP.pure _
    | schedule items passes => exact hP.pure _
  unfold Frame.step
  dsimp only
  split
  · exact hP.pure _
  · split
    · exact hP.pure _
    · exact hreach _

theorem Host.Closed.walk (hP : Host.Closed P) (hcalling : ∀ node, Calling P node) (steps : Nat)
    (frames : List (Frame σ)) : P _ (Cursor.walk steps frames) := by
  induction steps generalizing frames with
  | zero => cases frames <;> exact hP.pure _
  | succ steps ih =>
    cases frames with
    | nil => exact hP.pure _
    | cons f outer =>
      rw [Cursor.walk]
      refine hP.bind (hP.step hcalling f) fun step => ?_
      cases step with
      | yield seconds => exact hP.pure _
      | descend inner => exact ih _
      | pop => exact ih _

end Closed

variable {pace : Binary64 → Binary64}

theorem Cursor.shadows_next (c : Cursor σ) : Shadows pace id c.next c.next := by
  cases hfinished : c.finished with
  | true =>
    have hnext : c.next = pure (.error .exhausted, c) := by
      funext w
      exact next_of_finished hfinished w
    rw [hnext]
    exact .pure rfl
  | false =>
    rw [next_of_not_finished hfinished]
    exact ((Shadows.closed pace).walk (Shadows.calling pace) c.reach c.frames).bind fun _ => .pure rfl

theorem Pairs.shadows_next (p : Pairs σ) : Shadows pace id p.next p.next :=
  p.cursor.shadows_next.bind fun _ => .pure rfl

/-! ## Performances -/

/-- What a pull comes to, with a pace for the delay. -/
def Pulled.retimed (pace : Binary64 → Binary64) : Pulled → Pulled
  | .nothing => .nothing
  | .broken e => .broken e
  | .due seconds => .due (pace seconds)

theorem Settings.isReached_congr {settings settings' : Settings} (hlimit : settings'.limit = settings.limit)
    (fired : Nat) : settings'.isReached fired = settings.isReached fired := by
  rw [isReached, hlimit, isReached]

namespace Performance

/-- A performance whose delays are put to a pace. -/
def retimed (pace : Binary64 → Binary64) (p : Performance σ) : Performance σ :=
  { p with pace := pace ∘ p.pace }

theorem shadows_pull (p : Performance σ) :
    Shadows pace (Prod.map (Pulled.retimed pace) (retimed pace)) p.pull (p.retimed pace).pull := by
  cases hended : p.ended with
  | true =>
    rw [pull, pull, if_pos hended, if_pos (show (p.retimed pace).ended = true from hended)]
    exact .pure rfl
  | false =>
    rw [pull, pull, if_neg (Bool.not_eq_true _ ▸ hended),
      if_neg (Bool.not_eq_true _ ▸ (show (p.retimed pace).ended = false from hended))]
    refine p.pairs.shadows_next.bind ?_
    rintro ⟨pulled, pairs⟩
    rcases pulled with e | _ | ⟨interval, c⟩
    · exact .pure rfl
    · exact .pure rfl
    · exact (Shadows.wait pace (p.pace interval)).bind fun _ => .pure rfl

theorem shadows_fire (p : Performance σ) :
    Shadows pace (Prod.map id (retimed pace)) p.fire (p.retimed pace).fire := by
  refine (Shadows.invoke pace p.pairs.action).bind fun result => ?_
  cases result with
  | ok value => exact .pure rfl
  | error e => exact .pure rfl

theorem shadows_turn (p : Performance σ) :
    Shadows pace (Prod.map id (retimed pace)) p.turn (p.retimed pace).turn := by
  refine p.shadows_pull.bind ?_
  rintro ⟨pulled, p'⟩
  cases pulled with
  | nothing => exact .pure rfl
  | broken e => exact .pure rfl
  | due seconds => exact p'.shadows_fire.bind fun _ => .pure rfl

/-- A run at a pace comes to what the run without it comes to, if both have the same limit. -/
theorem shadows_run (p : Performance σ) {settings settings' : Settings} (hlimit : settings'.limit = settings.limit)
    (turns fired : Nat) :
    Shadows pace id (p.run settings turns fired) ((p.retimed pace).run settings' turns fired) := by
  induction turns generalizing fired p with
  | zero =>
    rw [Performance.run, Performance.run, Settings.isReached_congr hlimit]
    split <;> exact .pure rfl
  | succ turns ih =>
    rw [Performance.run, Performance.run, Settings.isReached_congr hlimit]
    split
    · exact .pure rfl
    · refine p.shadows_turn.bind ?_
      rintro ⟨result, p'⟩
      rcases result with _ | e | value
      · exact .pure rfl
      · exact .pure rfl
      · exact ih p' (fired + 1)

end Performance

/-! ## Runs side by side -/

/-- The run of a statement, with its delays put to a pace. -/
def Task.retimed (pace : Binary64 → Binary64) (t : Task σ) : Task σ :=
  { t with performance := t.performance.retimed pace }

theorem nextDue_map (f : α → β) (waiting : List (Nat × α)) :
    nextDue (waiting.map (Prod.map id f)) =
      (nextDue waiting).map fun (due, ready, rest) => (due, ready.map f, rest.map (Prod.map id f)) := by
  simp [nextDue, List.filter_map, Function.comp_def]

namespace Ensemble

/-- Runs with their delays put to a pace. -/
def retimed (pace : Binary64 → Binary64) (e : Ensemble σ) : Ensemble σ :=
  { e with queue := e.queue.map (·.retimed pace), waiting := e.waiting.map (Prod.map id (·.retimed pace)) }

variable {clock clock' : Clock} {settings settings' : Settings}

theorem isOver_retimed (e : Ensemble σ) : (e.retimed pace).isOver = e.isOver := by
  simp [isOver, retimed]

/-- A step at a pace does what the step without it does, if delays at this pace last as long. -/
theorem shadows_step (e : Ensemble σ) (hclock : ∀ seconds, clock' (pace seconds) = clock seconds)
    (hlimit : settings'.limit = settings.limit) :
    Shadows pace (retimed pace) (e.step clock settings) ((e.retimed pace).step clock' settings') := by
  cases hqueue : e.queue with
  | nil =>
    have hqueue' : (e.retimed pace).queue = [] := congrArg (List.map _) hqueue
    rw [step, step, hqueue, hqueue']
    dsimp only [retimed]
    rw [nextDue_map]
    cases hdue : nextDue e.waiting with
    | none => exact .pure rfl
    | some found =>
      obtain ⟨due, ready, rest⟩ := found
      exact .pure rfl
  | cons t queue =>
    have hqueue' : (e.retimed pace).queue = t.retimed pace :: queue.map (·.retimed pace) :=
      congrArg (List.map _) hqueue
    have hfiring : (t.retimed pace).firing = t.firing := rfl
    have hfired : (t.retimed pace).fired = t.fired := rfl
    rw [step, step, hqueue, hqueue']
    dsimp only
    rw [hfiring, hfired, Settings.isReached_congr hlimit]
    split
    · refine t.performance.shadows_fire.bind ?_
      rintro ⟨result, p⟩
      cases result with
      | ok value =>
        exact .pure rfl
      | error error => exact .pure rfl
    · split
      · exact .pure rfl
      · refine t.performance.shadows_pull.bind ?_
        rintro ⟨pulled, p⟩
        cases pulled with
        | nothing => exact .pure rfl
        | broken error => exact .pure rfl
        | due seconds =>
          dsimp only [Prod.map, Pulled.retimed]
          rw [hclock]
          split
          · exact .pure rfl
          · exact .pure (by simp [retimed, Task.retimed])

theorem shadows_run (e : Ensemble σ) (hclock : ∀ seconds, clock' (pace seconds) = clock seconds)
    (hlimit : settings'.limit = settings.limit) (steps : Nat) :
    Shadows pace (retimed pace) (e.run clock settings steps) ((e.retimed pace).run clock' settings' steps) := by
  induction steps generalizing e with
  | zero => exact .pure rfl
  | succ steps ih =>
    rw [Ensemble.run, Ensemble.run, isOver_retimed]
    split
    · exact .pure rfl
    · exact (e.shadows_step hclock hlimit).bind ih

end Ensemble

/-! ## Something happens -/

theorem World.size_journalWith (w : World σ) (made : List (Made σ)) :
    (w.journalWith made).size = w.journal.size + made.length := by
  simp [journalWith]

theorem Shadows.size_le {g : α → β} {m : StateM (World σ) α} {n : StateM (World σ) β} (h : Shadows pace g m n)
    (w : World σ) : w.journal.size ≤ (m w).2.journal.size := by
  obtain ⟨a, state, events, hm, _⟩ := h w w rfl
  rw [hm]
  simp [World.after]

/-- Something is called whenever a call is made, also if it fails. -/
theorem Bound.Call.size_lt_invoke (c : Bound.Call σ) (w : World σ) : w.journal.size < (c.invoke w).2.journal.size := by
  obtain ⟨made, hjournal, hran⟩ := c.evaluates_invoke w
  have hmade : made ≠ [] := hran.made_ne_nil (List.append_ne_nil_of_right_ne_nil _ (List.cons_ne_nil _ _))
  have hlength : 0 < made.length := List.length_pos_iff.2 hmade
  rw [hjournal, World.size_journalWith]
  omega

theorem Leaf.size_lt_of_pull_error {leaf : Leaf σ} {e : Error} {w w' : World σ} (h : leaf.pull w = (.error e, w')) :
    w.journal.size < w'.journal.size := by
  cases leaf with
  | interval seconds => cases h
  | call c =>
    have hlt := c.size_lt_invoke w
    rcases Host.bind_eq_error_iff.1 h with hinvoke | ⟨value, v, hinvoke, hvalue⟩
    · rw [hinvoke] at hlt
      exact hlt
    · obtain rfl : v = w' := congrArg Prod.snd hvalue
      rw [hinvoke] at hlt
      exact hlt

namespace Performance

variable {s : Bound.Statement σ Bound.Passes} {p : Performance σ} {settings : Settings}

/-- A pull with a leaf in front calls something or asks for a delay. -/
theorem Stands.size_lt_pull {leaf : Leaf σ} {rest : Stream'.Seq (Leaf σ)}
    (h : Stands s pace (Stream'.Seq.cons leaf rest) p) (w : World σ) :
    w.journal.size < (p.pull w).2.journal.size := by
  rcases h.cursor.next_cons w with ⟨seconds, v, c, hpull, hnext, _⟩ | ⟨e, v, c, hpull, hnext, _⟩
  · obtain ⟨made, hjournal, _⟩ := leaf.makes_pull w
    rw [hpull] at hjournal
    have hsize := congrArg Array.size hjournal
    rw [World.size_journalWith] at hsize
    rw [pull_of_interval h.underway hnext, World.wait, Array.size_push]
    dsimp only at hsize
    omega
  · rw [pull_of_error h.underway hnext]
    exact Leaf.size_lt_of_pull_error hpull

theorem size_lt_pull_start (hs : s.schedule.Solid) (pace : Binary64 → Binary64) (w : World σ) :
    w.journal.size < ((start s pace).pull w).2.journal.size := by
  obtain ⟨leaf, rest, hleaves⟩ := hs.exists_leaf
  have hstands : Stands s pace s.schedule.leaves (start s pace) := stands_start hs
  rw [hleaves] at hstands
  exact hstands.size_lt_pull w

theorem size_le_fire (p : Performance σ) (w : World σ) : w.journal.size ≤ (p.fire w).2.journal.size := by
  have hshadows : Shadows id (Prod.map id (retimed id)) p.fire (p.retimed id).fire := p.shadows_fire
  exact hshadows.size_le w

theorem size_le_run (p : Performance σ) (settings : Settings) (turns fired : Nat) (w : World σ) :
    w.journal.size ≤ (p.run settings turns fired w).2.journal.size := by
  have hshadows : Shadows id id (p.run settings turns fired) ((p.retimed id).run settings turns fired) :=
    p.shadows_run rfl turns fired
  exact hshadows.size_le w

end Performance

theorem Settings.isReached_zero {settings : Settings} (h : settings.limit ≠ some 0) :
    settings.isReached 0 = false := by
  rw [isReached]
  cases hlimit : settings.limit with
  | none => rfl
  | some limit =>
    rw [hlimit] at h
    cases limit with
    | zero => exact absurd rfl h
    | succ limit => rfl

/-- In a run that is granted a turn something is called, or a delay is asked for. -/
theorem Bound.Statement.size_lt_run {s : Bound.Statement σ Bound.Passes} (hs : s.schedule.Solid) {settings : Settings}
    (hlimit : settings.limit ≠ some 0) (turns : Nat) (w : World σ) :
    w.journal.size < (s.run settings (turns + 1) w).2.journal.size := by
  have hlt := Performance.size_lt_pull_start hs settings.pace w
  rw [Bound.Statement.run, Performance.run_succ (Settings.isReached_zero hlimit)]
  rcases hpull : (Performance.start s settings.pace).pull w with ⟨⟨_ | e | seconds, q⟩, v⟩ <;> rw [hpull] at hlt
  · rw [Performance.turn_of_nothing hpull]
    exact hlt
  · rw [Performance.turn_of_pull_broken hpull]
    exact hlt
  · have hle := q.size_le_fire v
    rcases hfire : q.fire v with ⟨⟨e | value, q'⟩, v'⟩ <;> rw [hfire] at hle
    · rw [Performance.turn_of_fire hpull hfire]
      exact hlt.trans_le hle
    · rw [Performance.turn_of_fire hpull hfire]
      exact (hlt.trans_le hle).trans_le (q'.size_le_run settings turns 1 v')

namespace Ensemble

theorem size_le_run (e : Ensemble σ) (clock : Clock) (settings : Settings) (steps : Nat) (w : World σ) :
    w.journal.size ≤ (e.run clock settings steps w).2.journal.size := by
  have hshadows : Shadows id (retimed id) (e.run clock settings steps) ((e.retimed id).run clock settings steps) :=
    e.shadows_run (fun _ => rfl) rfl steps
  exact hshadows.size_le w

theorem size_lt_run {statements : List (Bound.Statement σ Bound.Passes)} (hne : statements ≠ [])
    (hs : ∀ s ∈ statements, s.schedule.Solid) {settings : Settings} (hlimit : settings.limit ≠ some 0) (clock : Clock)
    (steps : Nat) (w : World σ) :
    w.journal.size < ((start statements settings).run clock settings (steps + 1) w).2.journal.size := by
  obtain ⟨s, others, rfl⟩ := List.exists_cons_of_ne_nil hne
  have hlt := Performance.size_lt_pull_start (hs s List.mem_cons_self) settings.pace w
  have hreached := Settings.isReached_zero hlimit
  have hqueue : (start (s :: others) settings).queue
      = ⟨0, s.action.name, Performance.start s settings.pace, 0, false⟩ ::
        others.mapIdx fun i s => ⟨i + 1, s.action.name, Performance.start s settings.pace, 0, false⟩ :=
    List.mapIdx_cons
  have hover : (start (s :: others) settings).isOver = false := by
    rw [isOver, hqueue]
    rfl
  -- the first step pulls the first statement
  have hstep : ∃ e, (start (s :: others) settings).step clock settings w
      = (e, ((Performance.start s settings.pace).pull w).2) := by
    rcases hpull : (Performance.start s settings.pace).pull w with ⟨⟨_ | error | seconds, q⟩, v⟩
    · exact ⟨_, step_of_ends clock hqueue (.nothing hreached hpull)⟩
    · exact ⟨_, step_of_ends clock hqueue (.broken hreached hpull)⟩
    · obtain ⟨e, hstep, _⟩ := step_of_goes clock hqueue (.pull hreached hpull)
      exact ⟨e, hstep⟩
  obtain ⟨e, hstep⟩ := hstep
  rw [run_succ hover steps hstep]
  exact hlt.trans_le (e.size_le_run clock settings steps _)

end Ensemble

/-! ## Scales -/

/-- The same settings at the program's own pace. -/
def Settings.unscaled (settings : Settings) : Settings :=
  { settings with scale := .ofInt 1 }

namespace Settings

theorem pace_comp_unscaled (settings : Settings) : settings.pace ∘ settings.unscaled.pace = settings.pace := by
  funext interval
  exact congrArg settings.pace interval.mul_one

/-- The scale makes sense exactly if no interval is scaled to a delay that is negative or "not a number". -/
theorem isValid_iff {settings : Settings} :
    settings.isValid = true ↔
      ∀ interval : Binary64, interval.IsInterval → Binary64.zero.le (settings.pace interval) = true := by
  constructor
  · intro hvalid interval hinterval
    exact (allows_of_isPaced hvalid ⟨interval, hinterval, rfl⟩).nonneg
  · intro h
    have hone : (Binary64.ofInt 1).IsInterval := Binary64.isInterval_ofInt (show 0 ≤ (1 : Int64).toInt by decide)
    have hscale := h _ hone
    have hzero := h _ Binary64.isInterval_zero
    rw [pace, Binary64.one_mul] at hscale
    rw [isValid, hscale, Bool.and_true]
    -- zero times an infinite scale is "not a number"
    by_contra hinfinite
    rw [pace, Binary64.zero_mul_of_not_isFinite (Bool.not_eq_true _ ▸ hinfinite)] at hzero
    cases hzero

end Settings

theorem Performance.retimed_start (s : Bound.Statement σ Bound.Passes) (settings : Settings) :
    (start s settings.unscaled.pace).retimed settings.pace = start s settings.pace := by
  rw [start, retimed, settings.pace_comp_unscaled, start]

theorem Ensemble.retimed_start (statements : List (Bound.Statement σ Bound.Passes)) (settings : Settings) :
    (start statements settings.unscaled).retimed settings.pace = start statements settings := by
  have htasks : ((start statements settings.unscaled).queue.map (·.retimed settings.pace))
      = (start statements settings).queue := by
    rw [start, start, List.mapIdx_eq_zipIdx_map, List.mapIdx_eq_zipIdx_map, List.map_map]
    refine List.map_congr_left ?_
    rintro ⟨s, i⟩ _
    exact congrArg (fun p => (⟨i, s.action.name, p, 0, false⟩ : Task σ)) (Performance.retimed_start s settings)
  rw [retimed, htasks]
  rfl

theorem Cli.perform_of_not_isValid {settings : Settings} (h : settings.isValid = false) (steps : Nat) (file : String)
    (text : Text) (w : World Console) :
    perform steps (.run file settings) text w = (.error settings.complaint, w) := by
  rw [perform, beginRun, h]
  rfl

theorem World.ne_nil_of_size_lt {w : World σ} {state : σ} {events : List (Event σ)}
    (h : w.journal.size < (w.after state events).journal.size) : events ≠ [] := by
  rintro rfl
  simp [after] at h

/-- Whatever the scale, also if it makes no sense, the run of a statement calls the same and comes to the same as at the
program's own pace, and the delays that it asks for are the scaled ones; and something does happen if the limit allows a
firing. So do runs side by side, if the delays last as long on the one clock as the scaled ones on the other. None of
these delays is negative or "not a number" exactly if the scale makes sense, and it is only the command line that does
nothing if it does not. -/
theorem runs_retimed (settings : Settings) :
    (∀ (s : Bound.Statement σ Bound.Passes) turns (w : World σ), ∃ standing state events,
      s.run settings.unscaled turns w = (standing, w.after state events) ∧
        s.run settings turns w = (standing, w.after state (events.map (Event.retimed settings.pace))) ∧
        (s.IsBound → settings.limit ≠ some 0 → 0 < turns → events ≠ [])) ∧
    (∀ (statements : List (Bound.Statement σ Bound.Passes)) clock steps (w : World σ), ∃ e e' state events,
      (Ensemble.start statements settings.unscaled).run (clock ∘ settings.pace) settings.unscaled steps w
          = (e, w.after state events) ∧
        (Ensemble.start statements settings).run clock settings steps w
          = (e', w.after state (events.map (Event.retimed settings.pace))) ∧
        e'.isOver = e.isOver ∧ e'.counts = e.counts ∧
        (statements ≠ [] → (∀ s ∈ statements, s.IsBound) → settings.limit ≠ some 0 → 0 < steps → events ≠ [])) ∧
    (settings.isValid = true ↔
      ∀ interval : Binary64, interval.IsInterval → Binary64.zero.le (settings.pace interval) = true) ∧
    (settings.isValid = false → ∀ steps file text w,
      Cli.perform steps (.run file settings) text w = (.error settings.complaint, w)) := by
  have hlimit : settings.limit = settings.unscaled.limit := rfl
  refine ⟨?_, ?_, Settings.isValid_iff, fun h => Cli.perform_of_not_isValid h⟩
  · intro s turns w
    have hshadows : Shadows settings.pace id (s.run settings.unscaled turns) (s.run settings turns) := by
      rw [Bound.Statement.run, Bound.Statement.run, ← Performance.retimed_start s settings]
      exact Performance.shadows_run _ hlimit turns 0
    obtain ⟨standing, state, events, hrun, hrun'⟩ := hshadows w w rfl
    refine ⟨standing, state, events, hrun, hrun', ?_⟩
    intro hs hfirings hturns
    obtain ⟨turns, rfl⟩ := Nat.exists_eq_succ_of_ne_zero hturns.ne'
    have hlt := Bound.Statement.size_lt_run hs.solid (hlimit ▸ hfirings) turns w
    rw [hrun] at hlt
    exact World.ne_nil_of_size_lt hlt
  · intro statements clock steps w
    have hclock : ∀ seconds, clock (settings.pace seconds) = (clock ∘ settings.pace) seconds := fun _ => rfl
    have hshadows : Shadows settings.pace (Ensemble.retimed settings.pace)
        ((Ensemble.start statements settings.unscaled).run (clock ∘ settings.pace) settings.unscaled steps)
        ((Ensemble.start statements settings).run clock settings steps) := by
      rw [← Ensemble.retimed_start statements settings]
      exact Ensemble.shadows_run _ hclock hlimit steps
    obtain ⟨e, state, events, hrun, hrun'⟩ := hshadows w w rfl
    refine ⟨e, e.retimed settings.pace, state, events, hrun, hrun', e.isOver_retimed, rfl, ?_⟩
    intro hne hs hfirings hsteps
    obtain ⟨steps, rfl⟩ := Nat.exists_eq_succ_of_ne_zero hsteps.ne'
    have hlt := Ensemble.size_lt_run hne (fun s hmem => (hs s hmem).solid) (hlimit ▸ hfirings) (clock ∘ settings.pace)
      steps w
    rw [hrun] at hlt
    exact World.ne_nil_of_size_lt hlt

theorem Sample.isBound_tickingTwice : tickingTwice.IsBound := by
  have hbind : Statements.bind actions functions [ticking (.times 2)] (.fresh 0) = (.ok [tickingTwice], .fresh 0) := rfl
  exact ⟨_, _, _, _, _, _, hbind, List.mem_singleton_self _⟩

/-- The settings of a run that would have to go back in time. -/
def Sample.backwards : Settings :=
  ⟨.ofInt (-1), none⟩

theorem Sample.isValid_backwards : backwards.isValid = false := by
  decide +kernel

theorem Sample.delays_run_backwards : (tickingTwice.run backwards 9 (.fresh 7)).2.delays
    = [.ofInt (-1), .ofInt (-7), .ofInt (-1), .ofInt (-8)] := by
  decide +kernel

/-- `ping()@[1, tick()]:2`, with delays that are negative; the command line says why it does not do that. -/
theorem runs_retimed_backwards :
    Sample.backwards.isValid = false ∧ Sample.tickingTwice.IsBound ∧
      (∃ standing state events, events ≠ [] ∧
        Sample.tickingTwice.run Sample.backwards.unscaled 9 (.fresh 7)
          = (standing, (World.fresh 7).after state events) ∧
        Sample.tickingTwice.run Sample.backwards 9 (.fresh 7)
          = (standing, (World.fresh 7).after state (events.map (Event.retimed Sample.backwards.pace))) ∧
        ((World.fresh 7).after state (events.map (Event.retimed Sample.backwards.pace))).delays
          = [.ofInt (-1), .ofInt (-7), .ofInt (-1), .ofInt (-8)]) ∧
      ∀ steps file text w, Cli.perform steps (.run file Sample.backwards) text w
        = (.error "time scale must be a non-negative number, got -1", w) := by
  obtain ⟨hrun, _, _, hrefused⟩ := runs_retimed Sample.backwards
  obtain ⟨standing, state, events, hown, hscaled, hsome⟩ := hrun Sample.tickingTwice 9 (.fresh 7)
  have hdelays := Sample.delays_run_backwards
  rw [hscaled] at hdelays
  have hcomplaint : Sample.backwards.complaint = "time scale must be a non-negative number, got -1" := by
    decide +kernel
  have hevents := hsome Sample.isBound_tickingTwice (Option.some_ne_none 0).symm (by decide)
  rw [hcomplaint] at hrefused
  exact ⟨Sample.isValid_backwards, Sample.isBound_tickingTwice,
    ⟨standing, state, events, hevents, hown, hscaled, hdelays⟩, hrefused Sample.isValid_backwards⟩

/-- A scale that makes no sense keeps nothing from being called, and asks for delays that are negative. -/
theorem not_idle_of_not_isValid :
    (¬ ∀ s : Bound.Statement Nat Bound.Passes, s.IsBound → ∀ settings : Settings, settings.isValid = false →
      settings.limit ≠ some 0 → ∀ turns w, (s.run settings turns w).2.journal = w.journal) ∧
    (¬ ∀ statements : List (Bound.Statement Nat Bound.Passes), (∀ s ∈ statements, s.IsBound) →
      ∀ settings : Settings, settings.isValid = false → settings.limit ≠ some 0 → ∀ clock steps w,
        ((Ensemble.start statements settings).run clock settings steps w).2.journal = w.journal) ∧
    ¬ ∀ s : Bound.Statement Nat Bound.Passes, s.IsBound → s.schedule.Regular → ∀ settings turns (w : World Nat),
      w.Asks (fun delay => Binary64.zero.le delay = true) (s.run settings turns w).2 := by
  have hbound := Sample.isBound_tickingTwice
  have hregular : Sample.tickingTwice.schedule.Regular :=
    ⟨hbound.solid, Binary64.isInterval_ofInt (show 0 ≤ (1 : Int64).toInt by decide), trivial, trivial⟩
  have hinvalid := Sample.isValid_backwards
  have hlimit : Sample.backwards.limit ≠ some 0 := (Option.some_ne_none 0).symm
  refine ⟨fun h => ?_, fun h => ?_, fun h => ?_⟩
  · have hsize := congrArg Array.size (h _ hbound _ hinvalid hlimit 9 (.fresh 7))
    exact absurd hsize (by decide +kernel)
  · have hsize := congrArg Array.size
      (h [Sample.tickingTwice] (List.forall_mem_singleton.2 hbound) _ hinvalid hlimit .immediate 9 (.fresh 7))
    exact absurd hsize (by decide +kernel)
  · obtain ⟨asked, hdelays, hnonneg⟩ := h _ hbound hregular Sample.backwards 9 (.fresh 7)
    rw [Sample.delays_run_backwards] at hdelays
    obtain rfl := hdelays
    exact absurd (hnonneg (.ofInt (-1)) List.mem_cons_self) (by decide +kernel)

end Cadence
