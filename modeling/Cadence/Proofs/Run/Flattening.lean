import Cadence.Proofs.Run.Leaves

/-!
# Cursors and leaves

A cursor hands out the leaves of its schedule one after the other. What a cursor has still to hand out can be read off
its frames (`leavesLeft`): the leaves of the innermost frame come first, then those of the frames around it. A step
in a frame keeps this sequence, down to the leaf that it yields (`Frame.step_of_not_isOver`), and so does a pull, which
finds a leaf, or the end, within the steps that a cursor allows itself (`Cursor.walk_cases`).
-/

namespace Cadence

open Stream' (Seq)
open Stream'.Seq (nil cons append)

variable {σ α : Type}

/-! ## Passes left -/

/-- A sequence as often in a row as passes are left behind the current one. -/
def Bound.Passes.left : Bound.Passes → UInt64 → Seq α → Seq α
  | .times n, pass, s => copies (n.toNat - pass.toNat - 1) s
  | .forever, _, s => endless s

/-- While passes are left, the next of them comes first. -/
theorem Bound.Passes.left_of_not_isComplete {passes : Bound.Passes} {pass : UInt64}
    (hpass : passes.isComplete pass = false) (h : passes.isComplete (pass + 1) = false) (s : Seq α) :
    passes.left pass s = s.append (passes.left (pass + 1) s) := by
  cases passes with
  | forever => exact endless_eq s
  | times n =>
    simp only [isComplete, decide_eq_false_iff_not, UInt64.not_le, UInt64.lt_iff_toNat_lt] at hpass h
    have hnext : (pass + 1).toNat = pass.toNat + 1 := by
      have := n.toNat_lt
      rw [UInt64.toNat_add, UInt64.toNat_one, Nat.mod_eq_of_lt (by omega)]
    have hcount : n.toNat - pass.toNat - 1 = (n.toNat - (pass + 1).toNat - 1) + 1 := by omega
    rw [left, hcount]
    rfl

/-- When the current pass is the last one, nothing is left behind it. -/
theorem Bound.Passes.left_of_isComplete {passes : Bound.Passes} {pass : UInt64}
    (hpass : passes.isComplete pass = false) (h : passes.isComplete (pass + 1) = true) (s : Seq α) :
    passes.left pass s = nil := by
  cases passes with
  | forever => cases h
  | times n =>
    simp only [isComplete, decide_eq_false_iff_not, UInt64.not_le, UInt64.lt_iff_toNat_lt] at hpass
    simp only [isComplete, decide_eq_true_eq, UInt64.le_iff_toNat_le] at h
    have hnext : (pass + 1).toNat = pass.toNat + 1 := by
      have := n.toNat_lt
      rw [UInt64.toNat_add, UInt64.toNat_one, Nat.mod_eq_of_lt (by omega)]
    have hcount : n.toNat - pass.toNat - 1 = 0 := by omega
    rw [left, hcount]
    rfl

theorem Bound.Passes.rounds_eq {passes : Bound.Passes} (h : passes.Positive) (s : Seq α) :
    passes.rounds s = s.append (passes.left 0 s) := by
  cases passes with
  | forever => exact endless_eq s
  | times n =>
    have hpos : n.toNat ≠ 0 := fun hn => h (UInt64.toNat_inj.1 hn)
    have hcount : n.toNat = (n.toNat - (0 : UInt64).toNat - 1) + 1 := by
      simp
      omega
    rw [rounds, left, hcount]
    rfl

/-! ## Frames -/

namespace Frame

/-- What a frame has still to hand out: the rest of its current pass, and the passes behind it. -/
def leavesLeft (f : Frame σ) : Seq (Leaf σ) :=
  append (Bound.Items.leaves (f.schedule.items.drop f.index))
    (f.schedule.passes.left f.pass (Bound.Items.leaves f.schedule.items))

/-- A frame as it stands between steps: inside of a solid schedule, and in a pass that the schedule makes. -/
structure Sound (f : Frame σ) : Prop where
  solid : f.schedule.Solid
  index_le : f.index ≤ f.schedule.items.length
  pass : f.schedule.passes.isComplete f.pass = false

/-- Whether the last pass of a frame is over. -/
def isOver (f : Frame σ) : Bool :=
  f.schedule.passes.isComplete f.turned.pass

@[simp] theorem schedule_turned (f : Frame σ) : f.turned.schedule = f.schedule := by
  unfold turned
  split <;> rfl

theorem isComplete_zero {passes : Bound.Passes} (h : passes.Positive) : passes.isComplete 0 = false := by
  cases passes with
  | forever => rfl
  | times n => simpa [Bound.Passes.isComplete, Bound.Passes.Positive] using h

theorem sound_start {s : Bound.Schedule σ Bound.Passes} (h : s.Solid) : (start s).Sound :=
  ⟨h, Nat.zero_le _, isComplete_zero h.2.1⟩

theorem leavesLeft_start {s : Bound.Schedule σ Bound.Passes} (h : s.Solid) : (start s).leavesLeft = s.leaves :=
  (Bound.Passes.rounds_eq h.2.1 _).symm

theorem isOver_start {s : Bound.Schedule σ Bound.Passes} (h : s.Solid) : (start s).isOver = false := by
  have hlen : ¬ s.items.length ≤ 0 := by
    have := List.length_pos_iff.2 h.1
    omega
  simp only [isOver, start, turned, hlen, if_false]
  exact isComplete_zero h.2.1

/-- Nothing is left of a frame whose last pass is over. -/
theorem leavesLeft_of_isOver {f : Frame σ} (hf : f.Sound) (h : f.isOver = true) : f.leavesLeft = nil := by
  unfold isOver turned at h
  split at h
  · next hlen =>
    rw [leavesLeft, List.drop_eq_nil_of_le hlen, Bound.Passes.left_of_isComplete hf.pass h]
    exact Stream'.Seq.nil_append nil
  · exact absurd h (by rw [hf.pass]; decide)

/-- Beginning the next pass where the current one is over leaves the same to hand out. -/
theorem turned_of_not_isOver {f : Frame σ} (hf : f.Sound) (h : f.isOver = false) :
    f.turned.Sound ∧ f.turned.index < f.schedule.items.length ∧ f.turned.leavesLeft = f.leavesLeft := by
  unfold isOver at h
  unfold turned at h ⊢
  split at h
  · next hlen =>
    rw [if_pos hlen]
    refine ⟨⟨hf.solid, Nat.zero_le _, h⟩, List.length_pos_iff.2 hf.solid.1, ?_⟩
    rw [leavesLeft, leavesLeft, List.drop_eq_nil_of_le hlen, Bound.Passes.left_of_not_isComplete hf.pass h]
    exact (Stream'.Seq.nil_append _).symm
  · next hlen =>
    rw [if_neg hlen]
    exact ⟨hf, by omega, rfl⟩

theorem step_of_isOver {f : Frame σ} (h : f.isOver = true) : f.step.2 = pure .pop := by
  have hpass : f.turned.schedule.passes.isComplete f.turned.pass = true := by
    rwa [schedule_turned]
  simp only [step, hpass, if_true]

/-- A step in a frame takes the first item that is left. -/
theorem step_of_not_isOver {f : Frame σ} (hf : f.Sound) (h : f.isOver = false) :
    ∃ item ∈ f.schedule.items, f.step.2 = reach item ∧ f.step.1.Sound ∧ f.step.1.schedule = f.schedule ∧
      f.leavesLeft = append item.leaves f.step.1.leavesLeft := by
  obtain ⟨hsound, hlt, hleft⟩ := turned_of_not_isOver hf h
  have hlt' : f.turned.index < f.turned.schedule.items.length := by rwa [schedule_turned]
  have hget : f.turned.schedule.items[f.turned.index]? = some f.turned.schedule.items[f.turned.index] :=
    List.getElem?_eq_getElem hlt'
  have hstep : f.step = ({ f.turned with index := f.turned.index + 1 },
      reach f.turned.schedule.items[f.turned.index]) := by
    have hpass : f.turned.schedule.passes.isComplete f.turned.pass = false := by
      rwa [schedule_turned]
    simp only [step, hpass, hget, Bool.false_eq_true, if_false]
  refine ⟨f.turned.schedule.items[f.turned.index], ?_, ?_, ?_, ?_, ?_⟩
  · rw [← schedule_turned f]
    exact List.getElem_mem hlt'
  · rw [hstep]
  · rw [hstep]
    exact ⟨hsound.solid, hlt', hsound.pass⟩
  · rw [hstep]
    exact schedule_turned f
  · rw [← hleft, hstep, leavesLeft, leavesLeft, List.drop_eq_getElem_cons hlt', Bound.Items.leaves]
    exact Stream'.Seq.append_assoc _ _ _

end Frame

/-! ## Stacks of frames -/

/-- What a stack of frames has still to hand out, the innermost frame first. -/
def leavesLeft : List (Frame σ) → Seq (Leaf σ)
  | [] => nil
  | f :: outer => append f.leavesLeft (leavesLeft outer)

/-- Sound frames that leave room, up to a `depth`, for all that is nested in them. -/
def Stacked (depth : Nat) : List (Frame σ) → Prop
  | [] => True
  | f :: outer => f.Sound ∧ f.schedule.depth + outer.length ≤ depth ∧ Stacked depth outer

/-- A bound for the steps to the next leaf: frames whose last pass is over are left, and then schedules are entered
down to a leaf. -/
def stepsLeft : List (Frame σ) → Nat
  | [] => 0
  | f :: outer => if f.isOver then stepsLeft outer + 1 else f.schedule.depth

theorem Bound.Schedule.depth_pos (s : Bound.Schedule σ Bound.Passes) : 0 < s.depth :=
  Nat.succ_pos _

theorem Bound.Items.depth_le_of_mem {items : List (Bound.Item σ Bound.Passes)} {a : Bound.Item σ Bound.Passes}
    (h : a ∈ items) : a.depth ≤ Bound.Items.depth items := by
  induction items with
  | nil => cases h
  | cons b rest ih =>
    rw [Bound.Items.depth]
    rcases List.mem_cons.1 h with rfl | h
    · exact Nat.le_max_left _ _
    · exact Nat.le_trans (ih h) (Nat.le_max_right _ _)

/-- The next leaf is found within two steps for every level of nesting. -/
theorem stepsLeft_le {depth : Nat} {frames : List (Frame σ)} (h : Stacked depth frames) :
    stepsLeft frames ≤ 2 * depth := by
  -- the frames to be left are at most as many as there are levels
  have key : stepsLeft frames ≤ depth + frames.length - 1 ∧ frames.length ≤ depth := by
    induction frames with
    | nil => exact ⟨Nat.zero_le _, Nat.zero_le _⟩
    | cons f outer ih =>
      obtain ⟨hsteps, hlen⟩ := ih h.2.2
      have hroom := h.2.1
      have hpos := f.schedule.depth_pos
      rw [stepsLeft, List.length_cons]
      split <;> omega
  omega

namespace Cursor

/-- A walk over a stack of frames comes to the first leaf that is left, and leaves the others; or it comes to the end,
if no leaf is left. -/
theorem walk_cases {depth steps : Nat} {frames : List (Frame σ)} (h : Stacked depth frames)
    (hsteps : stepsLeft frames ≤ steps) :
    leavesLeft frames = nil ∧ walk steps frames = pure (none, []) ∨
      ∃ leaf frames', leavesLeft frames = cons leaf (leavesLeft frames') ∧ Stacked depth frames' ∧
        walk steps frames = do
          let seconds ← leaf.pull
          return (some seconds, frames') := by
  induction steps generalizing frames with
  | zero =>
    cases frames with
    | nil => exact .inl ⟨rfl, rfl⟩
    | cons f outer =>
      -- every frame takes one step at least
      have := f.schedule.depth_pos
      rw [stepsLeft] at hsteps
      split at hsteps <;> omega
  | succ steps ih =>
    cases frames with
    | nil => exact .inl ⟨rfl, rfl⟩
    | cons f outer =>
      obtain ⟨hf, hroom, houter⟩ := h
      cases hover : f.isOver with
      | true =>
        -- the step leads out of the frame, which has nothing left
        have hleft : leavesLeft (f :: outer) = leavesLeft outer := by
          rw [leavesLeft, Frame.leavesLeft_of_isOver hf hover]
          exact Stream'.Seq.nil_append _
        have hwalk : walk (steps + 1) (f :: outer) = walk steps outer := by
          rw [walk, Frame.step_of_isOver hover, pure_bind]
        rw [stepsLeft, if_pos hover] at hsteps
        rw [hleft, hwalk]
        exact ih houter (by omega)
      | false =>
        obtain ⟨item, hmem, hreach, hsound, hsame, hleft⟩ := Frame.step_of_not_isOver hf hover
        have hrest : leavesLeft (f :: outer) = append item.leaves (leavesLeft (f.step.1 :: outer)) := by
          rw [leavesLeft, hleft, leavesLeft]
          exact Stream'.Seq.append_assoc _ _ _
        have hstacked : Stacked depth (f.step.1 :: outer) := ⟨hsound, by rw [hsame]; exact hroom, houter⟩
        rw [walk, hreach, hrest]
        cases item with
        | interval seconds =>
          refine .inr ⟨.interval seconds, f.step.1 :: outer, ?_, hstacked, ?_⟩
          · rw [Bound.Item.leaves, Stream'.Seq.cons_append, Stream'.Seq.nil_append]
          · rfl
        | call c =>
          refine .inr ⟨.call c, f.step.1 :: outer, ?_, hstacked, ?_⟩
          · rw [Bound.Item.leaves, Stream'.Seq.cons_append, Stream'.Seq.nil_append]
          · simp only [Frame.reach, Leaf.pull, bind_assoc, pure_bind]
        | schedule items passes =>
          -- the step leads into a schedule, whose leaves stand in front of the others; no leaf is found yet, but the
          -- frame that is entered is less deep
          have hsolid : (⟨items, passes⟩ : Bound.Schedule σ Bound.Passes).Solid :=
            Bound.Items.solid_iff.1 hf.solid.2.2 _ hmem
          have hdepth : (⟨items, passes⟩ : Bound.Schedule σ Bound.Passes).depth + 1 ≤ f.schedule.depth :=
            Nat.succ_le_succ (Bound.Items.depth_le_of_mem hmem)
          have hinner : Stacked depth (Frame.start ⟨items, passes⟩ :: f.step.1 :: outer) :=
            ⟨Frame.sound_start hsolid, by simp only [Frame.start, List.length_cons]; omega, hstacked⟩
          have hleaves : append (Bound.Item.schedule items passes).leaves (leavesLeft (f.step.1 :: outer)) =
              leavesLeft (Frame.start ⟨items, passes⟩ :: f.step.1 :: outer) := by
            show _ = append (Frame.start ⟨items, passes⟩).leavesLeft _
            rw [Frame.leavesLeft_start hsolid]
            rfl
          rw [hleaves, Frame.reach, pure_bind]
          refine ih hinner ?_
          rw [stepsLeft, hover] at hsteps
          rw [stepsLeft, Frame.isOver_start hsolid]
          simp only [Frame.start, if_false, Bool.false_eq_true] at hsteps ⊢
          omega

/-- A cursor that is not finished and has the leaves `rest` still to hand out. -/
structure Stands (s : Bound.Schedule σ Bound.Passes) (rest : Seq (Leaf σ)) (c : Cursor σ) : Prop where
  unfinished : c.finished = false
  reach : c.reach = 2 * s.depth
  stacked : Stacked s.depth c.frames
  left : leavesLeft c.frames = rest

theorem stands_start {s : Bound.Schedule σ Bound.Passes} (h : s.Solid) : Stands s s.leaves (start s) := by
  refine ⟨rfl, rfl, ⟨Frame.sound_start h, Nat.le_refl _, trivial⟩, ?_⟩
  show append (Frame.start s).leavesLeft nil = s.leaves
  rw [Stream'.Seq.append_nil, Frame.leavesLeft_start h]

/-- With no leaf left, a pull reports the end and leaves the world alone. -/
theorem Stands.next_nil {s : Bound.Schedule σ Bound.Passes} {c : Cursor σ} (h : Stands s nil c) (w : World σ) :
    ∃ c', c.next w = ((.ok none, c'), w) ∧ c'.finished = true := by
  have hsteps : stepsLeft c.frames ≤ c.reach := h.reach ▸ stepsLeft_le h.stacked
  rcases walk_cases h.stacked hsteps with ⟨-, hwalk⟩ | ⟨leaf, frames', hleft, -⟩
  · refine ⟨{ c with frames := [], finished := true }, ?_, rfl⟩
    rw [next, h.unfinished, hwalk]
    rfl
  · exact absurd (h.left.symm.trans hleft) Stream'.Seq.nil_ne_cons

/-- With a leaf in front, a pull is the pull of that leaf, and the cursor has the others left, or is finished if the
leaf fails. -/
theorem Stands.next_cons {s : Bound.Schedule σ Bound.Passes} {leaf : Leaf σ} {rest : Seq (Leaf σ)} {c : Cursor σ}
    (h : Stands s (cons leaf rest) c) (w : World σ) :
    (∃ seconds w' c', leaf.pull w = (.ok seconds, w') ∧ c.next w = ((.ok (some seconds), c'), w') ∧
        Stands s rest c') ∨
      ∃ e w' c', leaf.pull w = (.error e, w') ∧ c.next w = ((.error e, c'), w') ∧ c'.finished = true := by
  have hsteps : stepsLeft c.frames ≤ c.reach := h.reach ▸ stepsLeft_le h.stacked
  rcases walk_cases h.stacked hsteps with ⟨hleft, -⟩ | ⟨leaf', frames', hleft, hstacked, hwalk⟩
  · exact absurd (h.left.symm.trans hleft) Stream'.Seq.cons_ne_nil
  · obtain ⟨rfl, rfl⟩ := Stream'.Seq.cons_injective2 (h.left.symm.trans hleft)
    rcases hpull : leaf.pull w with ⟨e | seconds, w'⟩
    · refine .inr ⟨e, w', { c with frames := [], finished := true }, rfl, ?_, rfl⟩
      rw [next, h.unfinished, hwalk, Host.bind_of_error hpull]
      rfl
    · refine .inl ⟨seconds, w', { c with frames := frames' }, rfl, ?_, h.unfinished, h.reach, hstacked, rfl⟩
      rw [next, h.unfinished, hwalk, Host.bind_of_ok hpull]
      rfl

end Cursor

/-! ## Pulls -/

/-- `c` is a cursor over `s` after `k` pulls that gave an interval each, in whatever worlds they were made. -/
inductive Reached (s : Bound.Schedule σ Bound.Passes) : Nat → Cursor σ → Prop
  | start : Reached s 0 (Cursor.start s)
  | pull {k : Nat} {c c' : Cursor σ} {w w' : World σ} {seconds : Binary64} :
    Reached s k c → c.next w = ((.ok (some seconds), c'), w') → Reached s (k + 1) c'

/-- After `k` pulls the first `k` leaves are handed out, and all others are left. -/
theorem Reached.stands {s : Bound.Schedule σ Bound.Passes} (hs : s.Solid) {k : Nat} {c : Cursor σ}
    (h : Reached s k c) : c.Stands s (s.leaves.drop k) := by
  induction h with
  | start => exact Cursor.stands_start hs
  | @pull k c c' w w' seconds _ hnext ih =>
    cases hrest : s.leaves.drop k with
    | nil =>
      obtain ⟨_, hend, -⟩ := (hrest ▸ ih : c.Stands s nil).next_nil w
      cases hnext.symm.trans hend
    | cons leaf rest =>
      have htail : s.leaves.drop (k + 1) = rest := drop_succ_of_drop_eq_cons hrest
      rcases (hrest ▸ ih : c.Stands s (cons leaf rest)).next_cons w with
        ⟨_, _, _, -, hnext', hstands⟩ | ⟨_, _, _, -, hnext', -⟩
      · cases hnext.symm.trans hnext'
        rw [htail]
        exact hstands
      · cases hnext.symm.trans hnext'

/-- The `k`-th pull on a cursor over a schedule of a bound program, in any world, is the pull of the `k`-th leaf: a
written interval is given without any call, a call is made once, in that world, and its value is the interval or its
error the error; with no leaf left, the end is reported without any call. The call of a leaf is one that the program
has in the place of an item, so that no call for a number of passes is made by a pull. -/
theorem next_of_reached {actions functions : Registry σ} {program : List Statement} {w₀ w₁ : World σ}
    {bound : List (Bound.Statement σ Bound.Passes)}
    (hbind : Statements.bind actions functions program w₀ = (.ok bound, w₁))
    {s : Bound.Statement σ Bound.Passes} (hs : s ∈ bound) {t : Bound.Schedule σ Bound.Passes}
    (ht : s.schedule.Within t) {k : Nat} {c : Cursor σ} (hc : Reached t k c) (w : World σ) :
    ((c.next w).1.1, (c.next w).2) = (match t.leaves.get? k with
        | none => (.ok none, w)
        | some (.interval seconds) => (.ok (some seconds), w)
        | some (.call call) => match call.invoke w with
          | (.ok value, w') => ((call.interval value).map some, w')
          | (.error e, w') => (.error e, w')) ∧
      ∀ call, t.leaves.get? k = some (.call call) →
        ∃ source ∈ program, ∃ node ∈ source.schedule.toItem.intervalCalls,
          node.bound functions functions = .ok call := by
  obtain ⟨source, hsource, hbinds⟩ := exists_binds_of_bind hbind hs
  have hstands := hc.stands (ht.solid hbinds.solid)
  have hget : t.leaves.get? k = (t.leaves.drop k).get? 0 := by
    rw [Stream'.Seq.drop_get?, Nat.add_zero]
  constructor
  · rw [hget]
    cases hrest : t.leaves.drop k with
    | nil =>
      obtain ⟨c', hnext, -⟩ := (hrest ▸ hstands : c.Stands t nil).next_nil w
      rw [hnext]
      rfl
    | cons leaf rest =>
      rw [Stream'.Seq.get?_cons_zero]
      have hleaf : ((c.next w).1.1, (c.next w).2) = (match leaf.pull w with
          | (.ok seconds, w') => (.ok (some seconds), w')
          | (.error e, w') => (.error e, w')) := by
        rcases (hrest ▸ hstands : c.Stands t (cons leaf rest)).next_cons w with
          ⟨seconds, w', c', hpull, hnext, -⟩ | ⟨e, w', c', hpull, hnext, -⟩
        · rw [hnext, hpull]
        · rw [hnext, hpull]
      rw [hleaf]
      cases leaf with
      | interval seconds => rfl
      | call call =>
        rw [Leaf.pull, Host.bind_apply]
        dsimp only
        rcases call.invoke w with ⟨e | value, w'⟩
        · rfl
        · simp only [Host.ofResult]
          cases call.interval value <;> rfl
  · intro call hcall
    have hmem := Bound.Item.mem_intervalCalls (Stream'.Seq.get?_mem hcall)
    exact ⟨source, hsource, hbinds.exists_of_mem_intervalCalls (ht.mem_intervalCalls hmem)⟩

theorem next_of_reached_tick :
    Statements.bind Sample.actions Sample.functions [Sample.ticking (.times 2)] (.fresh 0)
        = (.ok [Sample.tickingTwice], .fresh 0) ∧
      ∃ c, Reached Sample.tickingTwice.schedule 1 c ∧
        ((c.next (.fresh 7)).1.1, (c.next (.fresh 7)).2)
          = ((Sample.tickCall.interval (.int 7)).map some, ⟨8, #[.called Sample.tick []]⟩) := by
  have hbind : Statements.bind Sample.actions Sample.functions [Sample.ticking (.times 2)] (.fresh 0)
      = (.ok [Sample.tickingTwice], .fresh 0) := rfl
  have hnext : (Cursor.start Sample.tickingTwice.schedule).next (.fresh 5)
      = ((.ok (some (.ofInt 1)), ⟨[⟨Sample.tickingTwice.schedule, 0, 1⟩], 2, false⟩), .fresh 5) := rfl
  have hc := Reached.pull .start hnext
  exact ⟨hbind, _, hc, (next_of_reached hbind (List.mem_singleton_self _) .self hc (.fresh 7)).1⟩

end Cadence
