import Cadence.Proofs.Run.Counts

/-!
# The search for the next interval

A pull steps through frames until a step yields an interval or fails, or no frame is left. `Search.Goes` is one step that
goes on with the search, with no bound on their number, and `Search.Ends` is how a search ends. The key facts: every
step that goes on brings the next leaf nearer (`Search.Goes.steps_lt`), after a step into a schedule no step leads out
of one (`Search.Run.of_inside`), and so every search ends, within two steps for each level of nesting
(`Search.exists_end`). That is what a cursor allows for it, and so a pull is the search up to its end (`Cursor.next_eq`).
-/

namespace Cadence

variable {σ : Type}

/-! ## Searches -/

/-- How far a search has come: the frames, innermost first, and the world. -/
structure Search (σ : Type) where
  frames : List (Frame σ)
  world : World σ

/-- What a search comes to: an interval or the end, with the frames that are left, or an error. -/
abbrev Search.Result (σ : Type) := Except Error (Option Binary64 × List (Frame σ))

namespace Search

/-- A step that goes on with the search. -/
inductive Move
  /-- Out of the innermost frame. -/
  | pop
  /-- Into a schedule inside the innermost frame's. -/
  | descend
deriving DecidableEq

inductive Goes : Search σ → Move → Search σ → Prop
  | pop {f : Frame σ} {outer : List (Frame σ)} {w w' : World σ} :
    f.step.2 w = (.ok .pop, w') → Goes ⟨f :: outer, w⟩ .pop ⟨outer, w'⟩
  | descend {f : Frame σ} {outer : List (Frame σ)} {inner : Bound.Schedule σ Bound.Passes} {w w' : World σ} :
    f.step.2 w = (.ok (.descend inner), w') →
    Goes ⟨f :: outer, w⟩ .descend ⟨Frame.start inner :: f.step.1 :: outer, w'⟩

/-- The end of a search, with the number of steps that it takes: none if no frame is left, and else the one that finds
the interval or fails. -/
inductive Ends : Search σ → Nat → Result σ → World σ → Prop
  | nothing {w : World σ} : Ends ⟨[], w⟩ 0 (.ok (none, [])) w
  | interval {f : Frame σ} {outer : List (Frame σ)} {seconds : Binary64} {w w' : World σ} :
    f.step.2 w = (.ok (.yield seconds), w') → Ends ⟨f :: outer, w⟩ 1 (.ok (some seconds, f.step.1 :: outer)) w'
  | broken {f : Frame σ} {outer : List (Frame σ)} {e : Error} {w w' : World σ} :
    f.step.2 w = (.error e, w') → Ends ⟨f :: outer, w⟩ 1 (.error e) w'

/-- Steps that go on with the search, one after the other. -/
inductive Run : Search σ → List Move → Search σ → Prop
  | refl (x : Search σ) : Run x [] x
  | step {x y z : Search σ} {move : Move} {moves : List Move} :
    Goes x move y → Run y moves z → Run x (move :: moves) z

end Search

/-! ## Steps in a frame -/

namespace Frame

/-- No item leads out of the frame, and only a schedule leads into one. -/
theorem ne_pop_of_reach {item : Bound.Item σ Bound.Passes} {w w' : World σ} {result : Except Error (Step σ)}
    (h : reach item w = (result, w')) :
    result ≠ .ok .pop ∧ ∀ inner, result = .ok (.descend inner) → inner.toItem = item := by
  cases item with
  | interval seconds =>
    cases h
    exact ⟨(nomatch ·), fun _ h => nomatch h⟩
  | call c =>
    -- whatever the call gives, the step has an interval or an error
    have hyields : ∀ step, result = .ok step → ∃ seconds, step = .yield seconds := by
      rintro step rfl
      obtain ⟨_, _, _, h⟩ := Host.bind_eq_ok_iff.1 h
      obtain ⟨seconds, _, _, h⟩ := Host.bind_eq_ok_iff.1 h
      cases h
      exact ⟨seconds, rfl⟩
    exact ⟨(nomatch hyields _ ·), fun _ h => nomatch hyields _ h⟩
  | schedule items passes =>
    cases h
    refine ⟨(nomatch ·), ?_⟩
    rintro inner ⟨⟩
    rfl

/-- A step leads out of a frame only if its last pass is over. -/
theorem Sound.isOver_of_pop {f : Frame σ} (hf : f.Sound) {w w' : World σ} (h : f.step.2 w = (.ok .pop, w')) :
    f.isOver = true := by
  cases hover : f.isOver with
  | true => rfl
  | false =>
    obtain ⟨item, _, hreach, _⟩ := step_of_not_isOver hf hover
    rw [hreach] at h
    exact absurd rfl (ne_pop_of_reach h).1

/-- Where the last pass of a frame is not over, a step takes an item; a schedule that it leads into is one of them. -/
theorem Sound.not_isOver_of_step {f : Frame σ} (hf : f.Sound) {w w' : World σ} {result : Except Error (Step σ)}
    (h : f.step.2 w = (result, w')) (hresult : result ≠ .ok .pop) :
    f.step.1.Sound ∧ f.step.1.schedule = f.schedule ∧
      ∀ inner, result = .ok (.descend inner) → inner.toItem ∈ f.schedule.items := by
  cases hover : f.isOver with
  | true =>
    rw [step_of_isOver hover] at h
    cases h
    exact absurd rfl hresult
  | false =>
    obtain ⟨item, hmem, hreach, hsound, hsame, _⟩ := step_of_not_isOver hf hover
    refine ⟨hsound, hsame, fun inner hinner => ?_⟩
    rw [hreach] at h
    rw [(ne_pop_of_reach h).2 inner hinner]
    exact hmem

end Frame

/-! ## What a step keeps -/

theorem Stacked.length_le {depth : Nat} {frames : List (Frame σ)} (h : Stacked depth frames) :
    frames.length ≤ depth := by
  cases frames with
  | nil => exact Nat.zero_le _
  | cons f outer =>
    have hroom := h.2.1
    have hpos := f.schedule.depth_pos
    rw [List.length_cons]
    omega

/-- A schedule that is entered is sound from its front, and less deep than the one around it. -/
theorem Frame.Sound.enter {f : Frame σ} (hf : f.Sound) {inner : Bound.Schedule σ Bound.Passes}
    (hmem : inner.toItem ∈ f.schedule.items) :
    (Frame.start inner).Sound ∧ (Frame.start inner).isOver = false ∧ inner.depth + 1 ≤ f.schedule.depth := by
  have hsolid : inner.Solid := Bound.Items.solid_iff.1 hf.solid.2.2 _ hmem
  have hdepth : inner.toItem.depth ≤ Bound.Items.depth f.schedule.items := Bound.Items.depth_le_of_mem hmem
  exact ⟨Frame.sound_start hsolid, Frame.isOver_start hsolid, Nat.succ_le_succ hdepth⟩

namespace Search

/-- The innermost frame has a pass that is not over. -/
def IsInside (x : Search σ) : Prop :=
  ∃ f outer, x.frames = f :: outer ∧ f.isOver = false

variable {depth : Nat} {x y z : Search σ} {move : Move} {moves : List Move}

/-- Steps keep the frames sound, and leave room for all that is nested in them. -/
theorem Goes.stacked (h : Goes x move y) (hx : Stacked depth x.frames) : Stacked depth y.frames := by
  cases h with
  | pop _ => exact hx.2.2
  | @descend f outer inner w w' hstep =>
    obtain ⟨hf, hroom, houter⟩ := hx
    obtain ⟨hsound, hsame, hmem⟩ := hf.not_isOver_of_step hstep (by simp)
    obtain ⟨hstart, _, hdepth⟩ := hf.enter (hmem inner rfl)
    have hroom' : inner.depth + (f.step.1 :: outer).length ≤ depth := by
      rw [List.length_cons]
      omega
    exact ⟨hstart, hroom', hsound, hsame ▸ hroom, houter⟩

/-- Every step brings the next leaf nearer. -/
theorem Goes.steps_lt (h : Goes x move y) (hx : Stacked depth x.frames) : stepsLeft y.frames < stepsLeft x.frames := by
  cases h with
  | pop hstep =>
    rw [stepsLeft, if_pos (hx.1.isOver_of_pop hstep)]
    exact Nat.lt_succ_self _
  | @descend f outer inner w w' hstep =>
    obtain ⟨hf, _, _⟩ := hx
    obtain ⟨_, _, hmem⟩ := hf.not_isOver_of_step hstep (by simp)
    obtain ⟨_, hinside, hdepth⟩ := hf.enter (hmem inner rfl)
    have hover : ¬f.isOver = true := by
      intro hover
      rw [Frame.step_of_isOver hover] at hstep
      cases hstep
    show stepsLeft (Frame.start inner :: f.step.1 :: outer) < stepsLeft (f :: outer)
    rw [stepsLeft, hinside, if_neg Bool.false_ne_true, stepsLeft, if_neg hover]
    exact hdepth

/-- A step out of a frame finds its last pass over. -/
theorem Goes.descends (h : Goes x move y) (hx : Stacked depth x.frames) (hinside : x.IsInside) : move = .descend := by
  cases h with
  | pop hstep =>
    obtain ⟨f, outer, hframes, hover⟩ := hinside
    cases hframes
    rw [hx.1.isOver_of_pop hstep] at hover
    cases hover
  | descend _ => rfl

/-- A step into a schedule finds a pass that is not over. -/
theorem Goes.isInside (h : Goes x .descend y) (hx : Stacked depth x.frames) : y.IsInside := by
  cases h with
  | @descend f outer inner w w' hstep =>
    obtain ⟨_, _, hmem⟩ := hx.1.not_isOver_of_step hstep (by simp)
    exact ⟨_, _, rfl, (hx.1.enter (hmem inner rfl)).2.1⟩

theorem Run.stacked (h : Run x moves y) (hx : Stacked depth x.frames) : Stacked depth y.frames := by
  induction h with
  | refl => exact hx
  | step hgoes _ ih => exact ih (hgoes.stacked hx)

theorem Run.length_add_le (h : Run x moves y) (hx : Stacked depth x.frames) :
    moves.length + stepsLeft y.frames ≤ stepsLeft x.frames := by
  induction h with
  | refl => exact Nat.le_of_eq (Nat.zero_add _)
  | step hgoes _ ih =>
    have hrest := ih (hgoes.stacked hx)
    have hless := hgoes.steps_lt hx
    rw [List.length_cons]
    omega

/-- Inside of a pass that is not over, all steps lead further in. -/
theorem Run.of_inside (h : Run x moves y) (hx : Stacked depth x.frames) (hinside : x.IsInside) :
    moves = List.replicate moves.length .descend := by
  induction h with
  | refl => rfl
  | step hgoes _ ih =>
    obtain rfl := hgoes.descends hx hinside
    rw [List.length_cons, List.replicate_succ, ← ih (hgoes.stacked hx) (hgoes.isInside hx)]

/-- Steps out of frames come first, and then steps into schedules. -/
theorem Run.exists_pops (h : Run x moves y) (hx : Stacked depth x.frames) :
    ∃ pops descents, moves = List.replicate pops .pop ++ List.replicate descents .descend := by
  induction h with
  | refl => exact ⟨0, 0, rfl⟩
  | @step x y z move moves hgoes hrun ih =>
    have hy := hgoes.stacked hx
    cases move with
    | pop =>
      obtain ⟨pops, descents, rfl⟩ := ih hy
      exact ⟨pops + 1, descents, rfl⟩
    | descend =>
      -- a schedule was entered, and from there on no step leads out of one
      have hmoves := hrun.of_inside hy (hgoes.isInside hx)
      exact ⟨0, moves.length + 1, congrArg (Move.descend :: ·) hmoves⟩

/-! ## The end of a search -/

/-- A search ends or goes on. -/
theorem ends_or_goes (x : Search σ) : (∃ steps result w, Ends x steps result w) ∨ ∃ move y, Goes x move y := by
  obtain ⟨frames, w⟩ := x
  cases frames with
  | nil => exact .inl ⟨0, _, w, .nothing⟩
  | cons f outer =>
    rcases hstep : f.step.2 w with ⟨e | step, w'⟩
    · exact .inl ⟨1, _, w', .broken hstep⟩
    · cases step with
      | yield seconds => exact .inl ⟨1, _, w', .interval hstep⟩
      | descend inner => exact .inr ⟨.descend, _, .descend hstep⟩
      | pop => exact .inr ⟨.pop, _, .pop hstep⟩

/-- The step that ends a search is one of those that are left. -/
theorem Ends.steps_le {steps : Nat} {result : Result σ} {w : World σ} (h : Ends x steps result w) :
    steps ≤ stepsLeft x.frames := by
  have key : ∀ (f : Frame σ) outer, 1 ≤ stepsLeft (f :: outer) := by
    intro f outer
    have hpos := f.schedule.depth_pos
    rw [stepsLeft]
    split <;> omega
  cases h with
  | nothing => exact Nat.zero_le _
  | interval _ => exact key _ _
  | broken _ => exact key _ _

/-- The frames that a search leaves are sound, and leave room for all that is nested in them. -/
theorem Ends.stacked {steps : Nat} {found : Option Binary64} {frames : List (Frame σ)} {w : World σ}
    (h : Ends x steps (.ok (found, frames)) w) (hx : Stacked depth x.frames) : Stacked depth frames := by
  cases h with
  | nothing => trivial
  | @interval f outer seconds w w' hstep =>
    obtain ⟨hf, hroom, houter⟩ := hx
    obtain ⟨hsound, hsame, _⟩ := hf.not_isOver_of_step hstep (by simp)
    exact ⟨hsound, hsame ▸ hroom, houter⟩

/-- Every search ends: the steps to the next leaf get fewer with every step that goes on. -/
theorem exists_run {x : Search σ} (hx : Stacked depth x.frames) :
    ∃ moves y steps result w, Run x moves y ∧ Ends y steps result w := by
  rcases x.ends_or_goes with ⟨steps, result, w, hend⟩ | ⟨move, y, hgoes⟩
  · exact ⟨[], x, steps, result, w, .refl x, hend⟩
  · obtain ⟨moves, z, steps, result, w, hrun, hend⟩ := exists_run (hgoes.stacked hx)
    exact ⟨move :: moves, z, steps, result, w, .step hgoes hrun, hend⟩
termination_by stepsLeft x.frames
decreasing_by exact hgoes.steps_lt hx

/-- It ends within two steps for each level of nesting. -/
theorem exists_end (hx : Stacked depth x.frames) :
    ∃ moves y steps result w, Run x moves y ∧ Ends y steps result w ∧ moves.length + steps ≤ 2 * depth := by
  obtain ⟨moves, y, steps, result, w, hrun, hend⟩ := exists_run hx
  have hmoves := hrun.length_add_le hx
  have hsteps := hend.steps_le
  have hbound := stepsLeft_le hx
  exact ⟨moves, y, steps, result, w, hrun, hend, by omega⟩

/-! ## Walks are searches -/

theorem Goes.walk_eq (h : Goes x move y) (steps : Nat) :
    Cursor.walk (steps + 1) x.frames x.world = Cursor.walk steps y.frames y.world := by
  cases h with
  | pop hstep => rw [Cursor.walk, Host.bind_of_ok hstep]
  | descend hstep => rw [Cursor.walk, Host.bind_of_ok hstep]

theorem Ends.walk_eq {steps : Nat} {result : Result σ} {w : World σ} (h : Ends x steps result w) (more : Nat) :
    Cursor.walk (steps + more) x.frames x.world = (result, w) := by
  cases h with
  | nothing =>
    cases more <;> rfl
  | interval hstep =>
    rw [Nat.add_comm, Cursor.walk, Host.bind_of_ok hstep]
    rfl
  | broken hstep => rw [Nat.add_comm, Cursor.walk, Host.bind_of_error hstep]

/-- A walk that is given all the steps of a search comes to its end. -/
theorem Run.walk_eq {steps : Nat} {result : Result σ} {w : World σ} (h : Run x moves y) (hend : Ends y steps result w)
    {allowed : Nat} (hallowed : moves.length + steps ≤ allowed) :
    Cursor.walk allowed x.frames x.world = (result, w) := by
  induction h generalizing allowed with
  | refl y =>
    obtain ⟨more, rfl⟩ := Nat.exists_eq_add_of_le (Nat.zero_add steps ▸ hallowed)
    exact hend.walk_eq more
  | step hgoes _ ih =>
    rw [List.length_cons] at hallowed
    obtain ⟨n, rfl⟩ : ∃ n, allowed = n + 1 := ⟨allowed - 1, by omega⟩
    rw [hgoes.walk_eq]
    exact ih hend (by omega)

end Search

/-! ## Pulls -/

namespace Cursor

/-- What a pull reports of a search, and the cursor behind it. -/
def settle (c : Cursor σ) : Search.Result σ → Except Error (Option Binary64) × Cursor σ
  | .ok (some seconds, frames) => (.ok (some seconds), { c with frames := frames })
  | .ok (none, frames) => (.ok none, { c with frames := frames, finished := true })
  | .error e => (.error e, { c with frames := [], finished := true })

/-- A cursor that is not finished walks, and settles what the walk found. -/
theorem next_of_not_finished {c : Cursor σ} (h : c.finished = false) :
    c.next = do
      let found ← (walk c.reach c.frames).run
      return c.settle found := by
  funext w
  rw [next, if_neg (h ▸ Bool.false_ne_true), state_bind_apply]
  simp only [ExceptT.run]
  rcases walk c.reach c.frames w with ⟨e | ⟨_ | seconds, frames⟩, w'⟩ <;> rfl

theorem next_of_walk {c : Cursor σ} (h : c.finished = false) {result : Search.Result σ} {w w' : World σ}
    (hwalk : walk c.reach c.frames w = (result, w')) : c.next w = (c.settle result, w') := by
  rw [next_of_not_finished h, state_bind_apply, ExceptT.run, hwalk]
  rfl

/-- A cursor that is not finished pulls what a search comes to. -/
theorem next_eq {depth : Nat} {c : Cursor σ} (h : c.finished = false) (hreach : c.reach = 2 * depth)
    (hstacked : Stacked depth c.frames) (w : World σ) :
    ∃ moves x steps result w', Search.Run ⟨c.frames, w⟩ moves x ∧ x.Ends steps result w' ∧
      moves.length + steps ≤ 2 * depth ∧ c.next w = (c.settle result, w') := by
  obtain ⟨moves, x, steps, result, w', hrun, hend, hbound⟩ := Search.exists_end (x := ⟨c.frames, w⟩) hstacked
  exact ⟨moves, x, steps, result, w', hrun, hend, hbound, next_of_walk h (hrun.walk_eq hend (hreach ▸ hbound))⟩

/-- However a cursor was used, its frames are sound and leave room for all that is nested in them. -/
theorem Used.stacked {s : Bound.Schedule σ Bound.Passes} (hs : s.Solid) {c : Cursor σ} (h : Used s c) :
    c.reach = 2 * s.depth ∧ Stacked s.depth c.frames := by
  induction h with
  | start => exact ⟨rfl, Frame.sound_start hs, Nat.le_refl _, trivial⟩
  | @next c w _ ih =>
    obtain ⟨hreach, hstacked⟩ := ih
    cases hfinished : c.finished with
    | true =>
      rw [next_of_finished hfinished]
      exact ⟨hreach, hstacked⟩
    | false =>
      obtain ⟨moves, x, steps, result, w', hrun, hend, _, hnext⟩ := next_eq hfinished hreach hstacked w
      have hx := hrun.stacked hstacked
      rw [hnext]
      rcases result with e | ⟨_ | seconds, frames⟩
      · exact ⟨hreach, trivial⟩
      · exact ⟨hreach, hend.stacked hx⟩
      · exact ⟨hreach, hend.stacked hx⟩

end Cursor

/-- A pull of a cursor over a schedule of a bound program, after any pulls and in any world, ends. A finished cursor makes
no step. Any other searches for the next interval: however far the search goes, its steps lead out of frames first and
then into schedules, there are at most twice as many as levels of nesting, the one that ends it included, and there are
never more frames than levels; and the search does come to its end, which is what is pulled. The numbers of passes do
not matter for that. -/
theorem next_within_depth {actions functions : Registry σ} {program : List Statement} {w₀ w₁ : World σ}
    {bound : List (Bound.Statement σ Bound.Passes)}
    (hbind : Statements.bind actions functions program w₀ = (.ok bound, w₁))
    {s : Bound.Statement σ Bound.Passes} (hs : s ∈ bound) {t : Bound.Schedule σ Bound.Passes}
    (ht : s.schedule.Within t) {c : Cursor σ} (hc : c.Used t) (w : World σ) :
    c.frames.length ≤ t.depth ∧
      (c.finished = true → c.next w = ((.error .exhausted, c), w)) ∧
      (c.finished = false →
        (∀ moves x, Search.Run ⟨c.frames, w⟩ moves x →
          (∃ pops descents, moves = List.replicate pops .pop ++ List.replicate descents .descend) ∧
            moves.length ≤ 2 * t.depth ∧ x.frames.length ≤ t.depth ∧
            ∀ steps result w', x.Ends steps result w' →
              moves.length + steps ≤ 2 * t.depth ∧ c.next w = (c.settle result, w')) ∧
        ∃ moves x steps result w', Search.Run ⟨c.frames, w⟩ moves x ∧ x.Ends steps result w') := by
  obtain ⟨source, _, hbinds⟩ := exists_binds_of_bind hbind hs
  obtain ⟨hreach, hstacked⟩ := hc.stacked (ht.solid hbinds.solid)
  refine ⟨hstacked.length_le, fun hfinished => Cursor.next_of_finished hfinished w, fun hfinished => ⟨?_, ?_⟩⟩
  · intro moves x hrun
    have hmoves := hrun.length_add_le hstacked
    have hbound := stepsLeft_le hstacked
    dsimp only at hmoves
    refine ⟨hrun.exists_pops hstacked, by omega, (hrun.stacked hstacked).length_le, ?_⟩
    intro steps result w' hend
    have hsteps := hend.steps_le
    have hall : moves.length + steps ≤ 2 * t.depth := by omega
    exact ⟨hall, Cursor.next_of_walk hfinished (hrun.walk_eq hend (hreach ▸ hall))⟩
  · exact Search.exists_run (x := ⟨c.frames, w⟩) hstacked

namespace Sample

/-- `ping()@[[1]:2]:*`. -/
def pulsing : Statement :=
  ⟨⟨"ping", []⟩, ⟨[.schedule [.interval (.int 1)] (.times 2)], .forever⟩⟩

/-- `ping()@[[1]:2]:*`, bound. -/
def pulsingForever : Bound.Statement Nat Bound.Passes :=
  ⟨⟨"ping", ping, []⟩, ⟨[.schedule [.interval (.ofInt 1)] (.times 2)], .forever⟩, pulsing.text⟩

end Sample

theorem next_within_depth_pulsing :
    Statements.bind Sample.actions Sample.functions [Sample.pulsing] (.fresh 0)
        = (.ok [Sample.pulsingForever], .fresh 0) ∧
      ∃ c : Cursor Nat, c.Used Sample.pulsingForever.schedule ∧ c.finished = false ∧
        ∃ x, Search.Run ⟨c.frames, .fresh 7⟩ [.pop, .descend] x ∧ 3 ≤ 2 * Sample.pulsingForever.schedule.depth ∧
          x.frames.length ≤ Sample.pulsingForever.schedule.depth ∧
          (c.next (.fresh 7)).1.1 = .ok (some (.ofInt 1)) := by
  have hbind : Statements.bind Sample.actions Sample.functions [Sample.pulsing] (.fresh 0)
      = (.ok [Sample.pulsingForever], .fresh 0) := rfl
  -- both passes of the inner schedule are pulled
  have hused : Cursor.Used Sample.pulsingForever.schedule
      (((Cursor.start Sample.pulsingForever.schedule).next (.fresh 5)).1.2.next (.fresh 6)).1.2 :=
    .next _ (.next _ .start)
  have hsearch := (next_within_depth hbind (List.mem_singleton_self _) .self hused (.fresh 7)).2.2 rfl
  have hrun : Search.Run ⟨(((Cursor.start Sample.pulsingForever.schedule).next (.fresh 5)).1.2.next (.fresh 6)).1.2.frames,
      .fresh 7⟩ [.pop, .descend] ⟨[Frame.start ⟨[.interval (.ofInt 1)], .times 2⟩,
        ⟨Sample.pulsingForever.schedule, 1, 1⟩], .fresh 7⟩ :=
    .step (.pop rfl) (.step (.descend rfl) (.refl _))
  obtain ⟨_, _, hframes, hend⟩ := hsearch.1 _ _ hrun
  obtain ⟨hsteps, hnext⟩ := hend _ _ _ (.interval rfl)
  exact ⟨hbind, _, hused, rfl, _, hrun, hsteps, hframes, congrArg (·.1.1) hnext⟩

end Cadence
