import Cadence.Proofs.Run.Completions

/-!
# Runs one after the other

On the clock on which no delay lasts, the run in front of the queue goes on until it ends (`Ensemble.exists_run_front`).
So the statements are run one after the other, each in the world that the one before it left, and the first one that is
stopped is the last one that is run (`Ensemble.concludes_immediate_iff`).
-/

namespace Cadence

variable {σ : Type}

/-- Statements are run in turn, each in the world that the one before it left, up to the first one that is stopped. What
comes of it is their counts, or the error that stopped that one. -/
inductive RunsInTurn (settings : Settings) :
    List (Bound.Statement σ Bound.Passes) → World σ → Except Error (List Nat) → World σ → Prop
  | done {w : World σ} : RunsInTurn settings [] w (.ok []) w
  | finished {s : Bound.Statement σ Bound.Passes} {rest : List (Bound.Statement σ Bound.Passes)} {turns fired : Nat}
    {w v w' : World σ} {result : Except Error (List Nat)} : s.run settings turns w = (.finished fired, v) →
    RunsInTurn settings rest v result w' → RunsInTurn settings (s :: rest) w (result.map (fired :: ·)) w'
  | stopped {s : Bound.Statement σ Bound.Passes} {rest : List (Bound.Statement σ Bound.Passes)} {turns fired : Nat}
    {w w' : World σ} {e : Error} : s.run settings turns w = (.stopped fired e, w') →
    RunsInTurn settings (s :: rest) w (.error e.reported) w'

namespace Performance

variable {p q q' : Performance σ} {w v v' : World σ}

theorem turn_of_nothing (h : p.pull w = ((.nothing, q), v)) : p.turn w = ((none, q), v) := by
  simp only [turn, state_bind_apply, state_pure_apply, h]

theorem turn_of_pull_broken {e : Error} (h : p.pull w = ((.broken e, q), v)) :
    p.turn w = ((some (.error e), q), v) := by
  simp only [turn, state_bind_apply, state_pure_apply, h]

theorem turn_of_fire {seconds : Binary64} {result : Except Error Value} (h : p.pull w = ((.due seconds, q), v))
    (hfire : q.fire v = ((result, q'), v')) : p.turn w = ((some result, q'), v') := by
  simp only [turn, state_bind_apply, state_pure_apply, h, hfire]

end Performance

namespace Ensemble

variable {clock : Clock} {settings : Settings} {e e' : Ensemble σ} {w v w' : World σ}

/-! ## Steps together -/

theorem run_of_isOver (h : e.isOver = true) (steps : Nat) (w : World σ) :
    e.run clock settings steps w = (e, w) := by
  cases steps with
  | zero => rfl
  | succ steps =>
    rw [run, if_pos h]
    rfl

theorem run_succ (h : e.isOver = false) (steps : Nat) (hstep : e.step clock settings w = (e', v)) :
    e.run clock settings (steps + 1) w = e'.run clock settings steps v := by
  rw [run, h, if_neg Bool.false_ne_true, state_bind_apply, hstep]

theorem run_add {first : Nat} (h : e.run clock settings first w = (e', v)) (more : Nat) :
    e.run clock settings (first + more) w = e'.run clock settings more v := by
  induction first generalizing e w with
  | zero =>
    cases h
    rw [Nat.zero_add]
  | succ first ih =>
    cases hover : e.isOver with
    | true =>
      rw [run_of_isOver hover] at h
      cases h
      rw [run_of_isOver hover, run_of_isOver hover]
    | false =>
      rcases hstep : e.step clock settings w with ⟨e₁, v₁⟩
      rw [run_succ hover first hstep] at h
      rw [Nat.add_right_comm, run_succ hover (first + more) hstep]
      exact ih h

/-- Runs side by side are over after some steps, with this to report. -/
def Concludes (clock : Clock) (settings : Settings) (e : Ensemble σ) (w : World σ) (result : Except Error (List Nat))
    (w' : World σ) : Prop :=
  ∃ steps e', e.run clock settings steps w = (e', w') ∧ e'.isOver = true ∧ e'.counts = result

theorem concludes_iff_of_run {steps : Nat} (h : e.run clock settings steps w = (e', v))
    {result : Except Error (List Nat)} :
    e.Concludes clock settings w result w' ↔ e'.Concludes clock settings v result w' := by
  constructor
  · rintro ⟨more, e₁, hrun, hover, hcounts⟩
    refine ⟨more, e₁, ?_, hover, hcounts⟩
    rw [← run_add h, Nat.add_comm, run_add hrun, run_of_isOver hover]
  · rintro ⟨more, e₁, hrun, hover, hcounts⟩
    refine ⟨steps + more, e₁, ?_, hover, hcounts⟩
    rw [run_add h, hrun]

/-! ## The run in front -/

/-- What comes of a run in front of the queue that was granted so many turns, and what becomes of the others. -/
inductive AfterTurns (e : Ensemble σ) (queue : List (Task σ)) (i : Nat) (name : String) (turns steps : Nat) :
    Standing → Ensemble σ → Prop
  | finished {p : Performance σ} {fired : Nat} :
    AfterTurns e queue i name turns steps (.finished fired) (e.complete queue ⟨i, name, p, fired, false⟩ none)
  | stopped {p : Performance σ} {fired : Nat} {error : Error} :
    AfterTurns e queue i name turns steps (.stopped fired error)
      (e.complete queue ⟨i, name, p, fired, false⟩ (some error))
  | underway {p : Performance σ} {fired : Nat} : turns ≤ steps →
    AfterTurns e queue i name turns steps (.underway fired) { e with queue := ⟨i, name, p, fired, false⟩ :: queue }

theorem AfterTurns.more {queue : List (Task σ)} {i : Nat} {name : String} {turns steps : Nat} {standing : Standing}
    (h : AfterTurns e queue i name turns steps standing e') :
    AfterTurns e queue i name (turns + 1) (steps + 2) standing e' := by
  cases h with
  | finished => exact .finished
  | stopped => exact .stopped
  | underway hle => exact .underway (by omega)

section Front

variable {t t' : Task σ} {queue : List (Task σ)}

theorem isOver_of_cons (hnone : ∀ c ∈ e.completions, c.error? = none) :
    ({ e with queue := t :: queue } : Ensemble σ).isOver = false := by
  simpa [isOver] using hnone

theorem run_of_ends (hnone : ∀ c ∈ e.completions, c.error? = none) {error? : Option Error}
    (h : t.Ends settings w error? w') :
    ({ e with queue := t :: queue } : Ensemble σ).run clock settings 1 w = (e.complete queue t error?, w') :=
  run_succ (isOver_of_cons hnone) 0 (step_of_ends clock rfl h)

theorem run_of_goes (hnone : ∀ c ∈ e.completions, c.error? = none) (queue : List (Task σ))
    (h : t.Goes settings w t' v) (steps : Nat) :
    ({ e with queue := t :: queue } : Ensemble σ).run .immediate settings (steps + 1) w
      = ({ e with queue := t' :: queue } : Ensemble σ).run .immediate settings steps v := by
  obtain ⟨e', hstep, _, hfront⟩ := step_of_goes (e := { e with queue := t :: queue }) .immediate rfl h
  rw [run_succ (isOver_of_cons hnone) steps hstep, hfront rfl]

end Front

/-- A turn of the run in front takes two steps, and the end of the run takes one. -/
theorem exists_run_front (hnone : ∀ c ∈ e.completions, c.error? = none) (queue : List (Task σ)) (i : Nat)
    (name : String) (turns fired : Nat) (p : Performance σ) (w : World σ) :
    ∃ steps e', ({ e with queue := ⟨i, name, p, fired, false⟩ :: queue } : Ensemble σ).run .immediate settings steps w
        = (e', (p.run settings turns fired w).2) ∧
      AfterTurns e queue i name turns steps (p.run settings turns fired w).1 e' := by
  induction turns generalizing fired p w with
  | zero =>
    cases hreached : settings.isReached fired with
    | true =>
      rw [Performance.run_of_isReached hreached]
      exact ⟨1, _, run_of_ends hnone (.reached hreached), .finished⟩
    | false =>
      rw [Performance.run_zero hreached]
      exact ⟨0, _, rfl, .underway (Nat.le_refl 0)⟩
  | succ turns ih =>
    cases hreached : settings.isReached fired with
    | true =>
      rw [Performance.run_of_isReached hreached]
      exact ⟨1, _, run_of_ends hnone (.reached hreached), .finished⟩
    | false =>
      rw [Performance.run_succ hreached]
      rcases hpull : p.pull w with ⟨⟨_ | error | seconds, q⟩, v⟩
      · rw [Performance.turn_of_nothing hpull]
        exact ⟨1, _, run_of_ends hnone (.nothing hreached hpull), .finished⟩
      · rw [Performance.turn_of_pull_broken hpull]
        exact ⟨1, _, run_of_ends hnone (.broken hreached hpull), .stopped⟩
      · have hgoes := run_of_goes (t := ⟨i, name, p, fired, false⟩) hnone queue (.pull hreached hpull)
        rcases hfire : q.fire v with ⟨⟨error | value, q'⟩, v'⟩
        · rw [Performance.turn_of_fire hpull hfire]
          refine ⟨2, _, ?_, .stopped (p := q)⟩
          rw [hgoes]
          exact run_of_ends hnone (.failed hfire)
        · rw [Performance.turn_of_fire hpull hfire]
          obtain ⟨steps, e', hrun, hafter⟩ := ih (fired + 1) q' v'
          refine ⟨steps + 2, e', ?_, hafter.more⟩
          rw [hgoes, run_of_goes hnone queue (.fire hfire)]
          exact hrun

/-! ## Statements in turn -/

/-- The runs of some statements, numbered from `first`, before anything happens. -/
def tasksFrom (settings : Settings) (first : Nat) (statements : List (Bound.Statement σ Bound.Passes)) :
    List (Task σ) :=
  (statements.zipIdx first).map fun (s, i) => ⟨i, s.action.name, Performance.start s settings.pace, 0, false⟩

/-- The first statements have these counts, and the others have not begun. -/
structure Awaits (settings : Settings) (counts : List Nat) (statements : List (Bound.Statement σ Bound.Passes))
    (e : Ensemble σ) : Prop where
  queue : e.queue = tasksFrom settings counts.length statements
  waiting : e.waiting = []
  counts_eq : e.counts = .ok (counts ++ List.replicate statements.length 0)

namespace Awaits

variable {counts : List Nat} {s : Bound.Statement σ Bound.Passes}
  {rest statements : List (Bound.Statement σ Bound.Passes)} {result : Except Error (List Nat)}

theorem start (statements : List (Bound.Statement σ Bound.Passes)) (settings : Settings) :
    (Ensemble.start statements settings).Awaits settings [] statements where
  queue := List.mapIdx_eq_zipIdx_map
  waiting := rfl
  counts_eq := rfl

theorem error?_eq_none (h : e.Awaits settings counts statements) : ∀ c ∈ e.completions, c.error? = none :=
  Completion.error?_eq_none_of_collect h.counts_eq

theorem isOver (h : e.Awaits settings counts []) : e.isOver = true := by
  simp [Ensemble.isOver, h.queue, h.waiting, tasksFrom]

/-- The first of the statements is run as if it were alone. -/
theorem exists_run (h : e.Awaits settings counts (s :: rest)) (turns : Nat) (w : World σ) :
    ∃ steps e', e.run .immediate settings steps w = (e', (s.run settings turns w).2) ∧
      AfterTurns e (tasksFrom settings (counts.length + 1) rest) counts.length s.action.name turns steps
        (s.run settings turns w).1 e' := by
  have hqueue : ({ e with queue := tasksFrom settings counts.length (s :: rest) } : Ensemble σ) = e := by
    rw [← h.queue]
  obtain ⟨steps, e', hrun, hafter⟩ := exists_run_front h.error?_eq_none (tasksFrom settings (counts.length + 1) rest)
    counts.length s.action.name turns 0 (Performance.start s settings.pace) w
  refine ⟨steps, e', ?_, hafter⟩
  rw [← hqueue]
  exact hrun

theorem finished (h : e.Awaits settings counts (s :: rest)) (p : Performance σ) (fired : Nat) :
    (e.complete (tasksFrom settings (counts.length + 1) rest) ⟨counts.length, s.action.name, p, fired, false⟩
      none).Awaits settings (counts ++ [fired]) rest where
  queue := by
    rw [List.length_append, List.length_singleton]
    rfl
  waiting := h.waiting
  counts_eq := by
    have hcounts : Completion.collect e.size e.completions = .ok (counts ++ 0 :: List.replicate rest.length 0) :=
      h.counts_eq
    show Completion.collect e.size (e.completions ++ [_]) = _
    rw [Completion.collect_append, hcounts]
    show (Except.ok ((counts ++ 0 :: List.replicate rest.length 0).set counts.length fired)
      : Except Error (List Nat)) = _
    simp

theorem stopped (h : e.Awaits settings counts statements) (queue : List (Task σ)) (t : Task σ) (error : Error) :
    (e.complete queue t (some error)).isOver = true ∧
      (e.complete queue t (some error)).counts = .error error.reported := by
  refine ⟨?_, Completion.collect_of_error h.error?_eq_none rfl []⟩
  simp [Ensemble.isOver, Ensemble.complete]

theorem concludes (h : e.Awaits settings counts statements) (hruns : RunsInTurn settings statements w result w') :
    e.Concludes .immediate settings w (result.map (counts ++ ·)) w' := by
  induction hruns generalizing e counts with
  | done => exact ⟨0, e, rfl, h.isOver, h.counts_eq⟩
  | @finished s rest turns fired w v w' result hrun _ ih =>
    obtain ⟨steps, e', hfront, hafter⟩ := h.exists_run turns w
    rw [hrun] at hfront hafter
    cases hafter with
    | @finished p =>
      have hconcludes := (concludes_iff_of_run hfront).2 (ih (h.finished p fired))
      cases result with
      | error error => exact hconcludes
      | ok others =>
        have happend : counts ++ [fired] ++ others = counts ++ fired :: others := List.append_cons .. |>.symm
        rw [Except.map, happend] at hconcludes
        exact hconcludes
  | @stopped s rest turns fired w w' error hrun =>
    obtain ⟨steps, e', hfront, hafter⟩ := h.exists_run turns w
    rw [hrun] at hfront hafter
    cases hafter with
    | stopped =>
      obtain ⟨hover, hcounts⟩ := h.stopped _ _ _
      exact ⟨steps, _, hfront, hover, hcounts⟩

theorem exists_runsInTurn (h : e.Awaits settings counts statements)
    (hconcludes : e.Concludes .immediate settings w result w') :
    ∃ others, RunsInTurn settings statements w others w' ∧ result = others.map (counts ++ ·) := by
  induction statements generalizing e counts w with
  | nil =>
    obtain ⟨steps, e', hrun, _, rfl⟩ := hconcludes
    rw [run_of_isOver h.isOver] at hrun
    cases hrun
    exact ⟨_, .done, h.counts_eq⟩
  | cons s rest ih =>
    obtain ⟨turns, last, hlast, hover, hcounts⟩ := hconcludes
    -- as many turns as it took steps until all was over
    obtain ⟨steps, e', hfront, hafter⟩ := h.exists_run turns w
    rcases hrun : s.run settings turns w with ⟨standing, v⟩
    rw [hrun] at hfront hafter
    have hconcludes := (concludes_iff_of_run hfront).1 ⟨turns, last, hlast, hover, hcounts⟩
    cases hafter with
    | @finished p fired =>
      obtain ⟨others, hruns, rfl⟩ := ih (h.finished p fired) hconcludes
      refine ⟨_, .finished hrun hruns, ?_⟩
      cases others with
      | error error => rfl
      | ok others => exact congrArg Except.ok (List.append_cons ..).symm
    | stopped =>
      obtain ⟨hstopped, herror⟩ := h.stopped _ _ _
      obtain ⟨_, _, hrun', _, rfl⟩ := hconcludes
      rw [run_of_isOver hstopped] at hrun'
      cases hrun'
      exact ⟨_, .stopped hrun, herror⟩
    | underway hle =>
      -- the run in front would still be there after all was over
      obtain ⟨more, rfl⟩ := Nat.exists_eq_add_of_le hle
      rw [run_add hlast, run_of_isOver hover] at hfront
      cases hfront
      rw [isOver_of_cons h.error?_eq_none] at hover
      cases hover

end Awaits

theorem concludes_immediate_iff {statements : List (Bound.Statement σ Bound.Passes)}
    {result : Except Error (List Nat)} :
    (start statements settings).Concludes .immediate settings w result w' ↔
      RunsInTurn settings statements w result w' := by
  have hmap : ∀ r : Except Error (List Nat), r.map (([] : List Nat) ++ ·) = r := by
    rintro (_ | _) <;> rfl
  constructor
  · intro hconcludes
    obtain ⟨others, hruns, rfl⟩ := (Awaits.start statements settings).exists_runsInTurn hconcludes
    rw [hmap]
    exact hruns
  · intro hruns
    have hconcludes := (Awaits.start statements settings).concludes hruns
    rw [hmap] at hconcludes
    exact hconcludes

end Ensemble

/-! ## What is reported -/

/-- What runs of statements report. Completions may come in any order and under any names: each count is reported at the
place of its own run, unless there is an error; then the first completion that has one decides. So, in whatever order
the runs of the statements of a bound program go on, and on whatever clock, they report the count of each statement in
program order, or the error of the one that failed. On the clock on which no delay lasts that is the error of the first
statement that is stopped, since the statements are run in turn. -/
theorem reports_of_bind {actions functions : Registry σ} {program : List Statement} {w₀ w₁ : World σ}
    {bound : List (Bound.Statement σ Bound.Passes)}
    (hbind : Statements.bind actions functions program w₀ = (.ok bound, w₁)) (settings : Settings) :
    (∀ size completions, Completion.Completes size completions →
        Completion.Reports size completions (Completion.collect size completions)) ∧
      (∀ e : Ensemble σ, (Ensemble.start bound settings).Reaches settings e → e.isOver = true →
        (∃ counts, e.counts = .ok counts ∧ List.Forall₂ (fun s n => s.Counts settings n) bound counts) ∨
          ∃ before c error, e.completions = before ++ [c] ∧ (∀ b ∈ before, b.error? = none) ∧
            c.error? = some error ∧ c.Of bound settings ∧ e.counts = .error error.reported) ∧
      (∀ clock steps w, (Ensemble.start bound settings).Reaches settings
        ((Ensemble.start bound settings).run clock settings steps w).1) ∧
      ∀ w result w', (Ensemble.start bound settings).Concludes .immediate settings w result w' ↔
        RunsInTurn settings bound w result w' :=
  ⟨fun _ _ h => Completion.reports_collect h, fun _ h hover => Ensemble.counts_of_reaches hbind h hover,
    fun clock steps w => Ensemble.reaches_run clock steps w, fun _ _ _ => Ensemble.concludes_immediate_iff⟩

/-- Two statements of the same action, the first one stopped by the limit before its fourth firing. -/
theorem reports_of_bind_tick :
    Statements.bind Sample.actions Sample.functions [Sample.ticking (.times 2), Sample.pinging] (.fresh 0)
        = (.ok [Sample.tickingTwice, Sample.pingingTwice], .fresh 0) ∧
      List.Forall₂ (fun s n => s.Counts ⟨.ofInt 1, some 3⟩ n) [Sample.tickingTwice, Sample.pingingTwice] [3, 2] ∧
      ∃ w', RunsInTurn ⟨.ofInt 1, some 3⟩ [Sample.tickingTwice, Sample.pingingTwice] (.fresh 5) (.ok [3, 2]) w' := by
  have hbind : Statements.bind Sample.actions Sample.functions [Sample.ticking (.times 2), Sample.pinging] (.fresh 0)
      = (.ok [Sample.tickingTwice, Sample.pingingTwice], .fresh 0) := rfl
  obtain ⟨_, hover, hreaches, hturn⟩ := reports_of_bind hbind ⟨.ofInt 1, some 3⟩
  refine ⟨hbind, ?_, ?_⟩
  · have hrun : ((Ensemble.start [Sample.tickingTwice, Sample.pingingTwice] ⟨.ofInt 1, some 3⟩).run .steady
          ⟨.ofInt 1, some 3⟩ 30 (.fresh 5)).1.isOver = true ∧
        ((Ensemble.start [Sample.tickingTwice, Sample.pingingTwice] ⟨.ofInt 1, some 3⟩).run .steady
          ⟨.ofInt 1, some 3⟩ 30 (.fresh 5)).1.counts.toOption = some [3, 2] := by
      decide +kernel
    rcases hover _ (hreaches .steady 30 (.fresh 5)) hrun.1 with ⟨counts, hcounts, hall⟩ | ⟨_, _, _, _, _, _, _, herror⟩
    · rw [hcounts] at hrun
      obtain rfl : counts = [3, 2] := Option.some.inj hrun.2
      exact hall
    · rw [herror] at hrun
      cases hrun.2
  · have hrun : ((Ensemble.start [Sample.tickingTwice, Sample.pingingTwice] ⟨.ofInt 1, some 3⟩).run .immediate
          ⟨.ofInt 1, some 3⟩ 30 (.fresh 5)).1.isOver = true ∧
        ((Ensemble.start [Sample.tickingTwice, Sample.pingingTwice] ⟨.ofInt 1, some 3⟩).run .immediate
          ⟨.ofInt 1, some 3⟩ 30 (.fresh 5)).1.counts.toOption = some [3, 2] := by
      decide +kernel
    have hreached := hreaches .immediate 30 (.fresh 5)
    rcases hlast : (Ensemble.start [Sample.tickingTwice, Sample.pingingTwice] ⟨.ofInt 1, some 3⟩).run .immediate
      ⟨.ofInt 1, some 3⟩ 30 (.fresh 5) with ⟨e, w'⟩
    rw [hlast] at hrun hreached
    rcases hover e hreached hrun.1 with ⟨counts, hcounts, _⟩ | ⟨_, _, _, _, _, _, _, herror⟩
    · obtain rfl : counts = [3, 2] := by
        rw [hcounts] at hrun
        exact Option.some.inj hrun.2
      exact ⟨w', (hturn (.fresh 5) _ w').1 ⟨30, e, hlast, hrun.1, hcounts⟩⟩
    · rw [herror] at hrun
      cases hrun.2

end Cadence
