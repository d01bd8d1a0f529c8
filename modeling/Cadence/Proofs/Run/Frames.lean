import Cadence.Proofs.Run.LifeCycle
import Cadence.Proofs.Run.Searching

/-!
# The frames of a cursor

How the frames of a cursor stand, between pulls and while one goes on. Every frame but the outermost is of the schedule
that its neighbour took last (`Nested`), and every frame is where its own steps have brought it (`Frame.Fits`). A pass
is counted by the step after its last item, so that a frame may count up to the number of its passes, and then it is at
the front and is left (`Frame.Turns`). The key fact is `Frame.turned_afterSteps`: the counts of a frame are the quotient
and the remainder of its number of steps, so that a schedule makes its passes, no more and no fewer
(`Bound.Schedule.MakesPasses`). In a frame without end the count of passes makes no difference (`Frame.Alike`).
-/

namespace Cadence

variable {σ : Type}

/-! ## Steps of a frame -/

namespace Frame

/-- In a pass that the schedule makes, a step takes the next item. -/
theorem Sound.step_eq {f : Frame σ} (hf : f.Sound) (h : f.isOver = false) :
    ∃ item, f.schedule.items[f.turned.index]? = some item ∧
      f.step = ({ f.turned with index := f.turned.index + 1 }, reach item) := by
  obtain ⟨_, hlt, _⟩ := turned_of_not_isOver hf h
  have hpass : f.turned.schedule.passes.isComplete f.turned.pass = false := by
    rw [schedule_turned]
    exact h
  have hget : f.schedule.items[f.turned.index]? = some f.schedule.items[f.turned.index] :=
    List.getElem?_eq_getElem hlt
  have hget' : f.turned.schedule.items[f.turned.index]? = some f.schedule.items[f.turned.index] := by
    rw [schedule_turned]
    exact hget
  refine ⟨_, hget, ?_⟩
  simp only [step, hpass, hget', Bool.false_eq_true, if_false]

/-- The frame that so many steps lead to from the front of a schedule. -/
def afterSteps (s : Bound.Schedule σ Bound.Passes) : Nat → Frame σ
  | 0 => start s
  | k + 1 => (afterSteps s k).step.1

end Frame

/-- So many items are at most all that a schedule takes in its passes. -/
def Bound.Schedule.Allows (s : Bound.Schedule σ Bound.Passes) (taken : Nat) : Prop :=
  ∀ n, s.passes = .times n → taken ≤ n.toNat * s.items.length

namespace Frame

variable {s : Bound.Schedule σ Bound.Passes}

/-- While more items are allowed, the current pass is one that the schedule makes. -/
theorem isComplete_of_allows {k : Nat} (h : s.Allows (k + 1)) :
    s.passes.isComplete (UInt64.ofNat (k / s.items.length)) = false := by
  cases hpasses : s.passes with
  | forever => rfl
  | times n =>
    have hk := h n hpasses
    have hlt : k / s.items.length < n.toNat := Nat.div_lt_of_lt_mul (by rw [Nat.mul_comm]; omega)
    have hn := n.toNat_lt
    have hmod : k / s.items.length % 2 ^ 64 = k / s.items.length := Nat.mod_eq_of_lt (by omega)
    simp only [Bound.Passes.isComplete, decide_eq_false_iff_not, UInt64.le_iff_toNat_le, UInt64.toNat_ofNat', hmod]
    omega

/-- Counting one item more at the end of a pass is counting one pass more. -/
theorem div_mod_succ {k len : Nat} (hlen : 0 < len) :
    (k % len + 1 = len → (k + 1) / len = k / len + 1 ∧ (k + 1) % len = 0) ∧
      (k % len + 1 < len → (k + 1) / len = k / len ∧ (k + 1) % len = k % len + 1) := by
  have hk := Nat.mod_add_div k len
  constructor
  · intro h
    refine (Nat.div_mod_unique hlen).2 ⟨?_, hlen⟩
    rw [Nat.mul_add]
    omega
  · intro h
    exact (Nat.div_mod_unique hlen).2 ⟨by omega, h⟩

/-- A step that is at some item of a pass that the schedule makes takes this item. -/
theorem step_of_turned {f : Frame σ} {k : Nat} (hs : s.Solid) (h : s.Allows (k + 1))
    (hf : f.turned = ⟨s, UInt64.ofNat (k / s.items.length), k % s.items.length⟩) :
    ∃ item, s.items[k % s.items.length]? = some item ∧
      f.step = (⟨s, UInt64.ofNat (k / s.items.length), k % s.items.length + 1⟩, reach item) := by
  have hlt : k % s.items.length < s.items.length := Nat.mod_lt _ (List.length_pos_iff.2 hs.1)
  have hget : s.items[k % s.items.length]? = some s.items[k % s.items.length] := List.getElem?_eq_getElem hlt
  refine ⟨_, hget, ?_⟩
  simp only [step, hf, isComplete_of_allows h, hget, Bool.false_eq_true, if_false]

/-- After so many steps a frame is at the item that is the remainder of their number by the number of items, in the pass
that is the quotient. -/
theorem turned_afterSteps (hs : s.Solid) {k : Nat} (h : s.Allows k) :
    (afterSteps s k).turned = ⟨s, UInt64.ofNat (k / s.items.length), k % s.items.length⟩ := by
  have hlen : 0 < s.items.length := List.length_pos_iff.2 hs.1
  induction k with
  | zero =>
    have hfront : ¬ s.items.length ≤ 0 := by omega
    simp [afterSteps, start, turned, hfront]
  | succ k ih =>
    have hturned := ih fun n hn => Nat.le_of_succ_le (h n hn)
    have hlt : k % s.items.length < s.items.length := Nat.mod_lt _ hlen
    obtain ⟨_, _, hstep⟩ := step_of_turned hs h hturned
    rw [afterSteps, hstep]
    by_cases hlast : k % s.items.length + 1 = s.items.length
    · obtain ⟨hdiv, hmod⟩ := (div_mod_succ hlen).1 hlast
      rw [hdiv, hmod, UInt64.ofNat_add]
      simp [turned, hlast]
    · have hinside : k % s.items.length + 1 < s.items.length := by omega
      obtain ⟨hdiv, hmod⟩ := (div_mod_succ hlen).2 hinside
      rw [hdiv, hmod]
      simp [turned, hinside]

end Frame

/-- A frame goes over the items of its schedule pass by pass: it takes them in order and begins anew behind the last
one, until it has made as many passes as there are. Then it is left. A frame without end is never left. -/
structure Bound.Schedule.MakesPasses (s : Bound.Schedule σ Bound.Passes) : Prop where
  takes : ∀ k, s.Allows (k + 1) → ∃ item, s.items[k % s.items.length]? = some item ∧
    (Frame.afterSteps s k).step
      = (⟨s, UInt64.ofNat (k / s.items.length), k % s.items.length + 1⟩, Frame.reach item)
  leaves : ∀ n, s.passes = .times n →
    (Frame.afterSteps s (n.toNat * s.items.length)).step = (⟨s, n, 0⟩, pure .pop)

theorem Bound.Schedule.Solid.makesPasses {s : Bound.Schedule σ Bound.Passes} (hs : s.Solid) : s.MakesPasses where
  takes := by
    intro k h
    have hturned := Frame.turned_afterSteps hs fun n hn => Nat.le_of_succ_le (h n hn)
    exact Frame.step_of_turned hs h hturned
  leaves := by
    intro n hn
    have hlen : 0 < s.items.length := List.length_pos_iff.2 hs.1
    have hallows : s.Allows (n.toNat * s.items.length) := by
      intro m hm
      obtain rfl : n = m := Bound.Passes.times.inj (hn.symm.trans hm)
      exact Nat.le_refl _
    have hturned := Frame.turned_afterSteps hs hallows
    rw [Nat.mul_div_cancel _ hlen, Nat.mul_mod_left, UInt64.ofNat_toNat] at hturned
    simp [Frame.step, hturned, hn, Bound.Passes.isComplete]

/-! ## How frames stand -/

/-- A frame between its steps. -/
structure Frame.Fits (f : Frame σ) : Prop where
  index_le : f.index ≤ f.schedule.items.length
  pass_lt : ∀ n, f.schedule.passes = .times n → f.pass < n
  /-- It is where its own steps have brought it. -/
  counted : ∃ k, f.schedule.Allows k ∧ f = Frame.afterSteps f.schedule k

/-- A frame while it makes a step. What it counts is exact, though the count may be that of all passes, and then the
frame is at the front. -/
structure Frame.Turns (f : Frame σ) : Prop where
  index_le : f.turned.index ≤ f.schedule.items.length
  pass_eq : ∀ n, f.schedule.passes = .times n →
    f.turned.pass.toNat = f.pass.toNat + if f.schedule.items.length ≤ f.index then 1 else 0
  pass_le : ∀ n, f.schedule.passes = .times n → f.turned.pass ≤ n
  index_eq_zero : ∀ n, f.schedule.passes = .times n → f.turned.pass = n → f.turned.index = 0

/-- The outermost frame is of `t`, and every other is of the schedule that stands right before the index of the frame
around it. -/
def Nested (t : Bound.Schedule σ Bound.Passes) : List (Frame σ) → Prop
  | [] => True
  | [f] => f.schedule = t
  | f :: g :: outer =>
    (0 < g.index ∧ g.schedule.items[g.index - 1]? = some f.schedule.toItem) ∧ Nested t (g :: outer)

/-- How the frames of a cursor over `t` stand. -/
structure Shaped (t : Bound.Schedule σ Bound.Passes) (frames : List (Frame σ)) : Prop where
  nested : Nested t frames
  fits : ∀ f ∈ frames, f.Fits

namespace Frame

theorem Sound.pass_lt {f : Frame σ} (hf : f.Sound) {n : UInt64} (hn : f.schedule.passes = .times n) : f.pass < n := by
  have hpass := hf.pass
  rw [hn] at hpass
  exact UInt64.not_le.1 (of_decide_eq_false hpass)

theorem Sound.turns {f : Frame σ} (hf : f.Sound) : f.Turns := by
  by_cases hlast : f.schedule.items.length ≤ f.index
  · -- the pass is over, and one more is counted
    have hturned : f.turned = { f with pass := f.pass + 1, index := 0 } := by simp [turned, hlast]
    have hexact : ∀ n, f.schedule.passes = .times n →
        (f.pass + 1).toNat = f.pass.toNat + 1 ∧ f.pass.toNat < n.toNat := by
      intro n hn
      have hlt := UInt64.lt_iff_toNat_lt.1 (hf.pass_lt hn)
      have := n.toNat_lt
      rw [UInt64.toNat_add, UInt64.toNat_one, Nat.mod_eq_of_lt (by omega)]
      exact ⟨rfl, hlt⟩
    refine ⟨?_, ?_, ?_, ?_⟩
    · rw [hturned]
      exact Nat.zero_le _
    · intro n hn
      rw [hturned, if_pos hlast]
      exact (hexact n hn).1
    · intro n hn
      have := hexact n hn
      rw [hturned, UInt64.le_iff_toNat_le]
      dsimp only
      omega
    · intro n _ _
      rw [hturned]
  · have hturned : f.turned = f := by simp [turned, hlast]
    refine ⟨?_, ?_, ?_, ?_⟩
    · rw [hturned]
      exact hf.index_le
    · intro n _
      rw [hturned, if_neg hlast]
      rfl
    · intro n hn
      rw [hturned]
      exact UInt64.le_of_lt (hf.pass_lt hn)
    · intro n hn hpass
      rw [hturned] at hpass
      exact absurd hpass (UInt64.ne_of_lt (hf.pass_lt hn))

/-- A sound frame fits if its own steps have brought it where it is. -/
theorem Sound.fits {f : Frame σ} (hf : f.Sound) (h : ∃ k, f.schedule.Allows k ∧ f = afterSteps f.schedule k) :
    f.Fits :=
  ⟨hf.index_le, fun _ hn => hf.pass_lt hn, h⟩

theorem Sound.fits_start {inner : Bound.Schedule σ Bound.Passes} (h : (start inner).Sound) : (start inner).Fits :=
  h.fits ⟨0, fun _ _ => Nat.zero_le _, rfl⟩

/-- Unless the last pass of a frame is over, one more item is allowed. -/
theorem allows_succ_of_not_isOver (hs : s.Solid) {k : Nat} (h : s.Allows k) (hover : (afterSteps s k).isOver = false) :
    s.Allows (k + 1) := by
  have hturned := turned_afterSteps hs h
  have hschedule : (afterSteps s k).schedule = s := by
    rw [← schedule_turned, hturned]
  intro n hn
  have hlen : 0 < s.items.length := List.length_pos_iff.2 hs.1
  have hle : k / s.items.length ≤ n.toNat := Nat.div_le_of_le_mul (by rw [Nat.mul_comm]; exact h n hn)
  have hsize := n.toNat_lt
  have hmod : k / s.items.length % 2 ^ 64 = k / s.items.length := Nat.mod_eq_of_lt (by omega)
  rw [isOver, hturned, hschedule, hn] at hover
  simp only [Bound.Passes.isComplete, decide_eq_false_iff_not, UInt64.le_iff_toNat_le, UInt64.toNat_ofNat',
    hmod] at hover
  have hlt : k < n.toNat * s.items.length := (Nat.div_lt_iff_lt_mul hlen).1 (by omega)
  omega

/-- A step that takes an item keeps a frame fitting. -/
theorem Fits.step {f : Frame σ} (h : f.Fits) (hf : f.Sound) (hover : f.isOver = false) : f.step.1.Fits := by
  obtain ⟨_, _, _, hsound, hschedule, _⟩ := step_of_not_isOver hf hover
  obtain ⟨k, hallows, hk⟩ := h.counted
  rw [hk] at hover
  have hnext := allows_succ_of_not_isOver hf.solid hallows hover
  refine hsound.fits ⟨k + 1, ?_, ?_⟩
  · rw [hschedule]
    exact hnext
  · rw [hschedule, afterSteps, ← hk]

end Frame

namespace Nested

variable {t : Bound.Schedule σ Bound.Passes} {f g : Frame σ} {outer : List (Frame σ)}

theorem tail (h : Nested t (f :: outer)) : Nested t outer := by
  cases outer with
  | nil => trivial
  | cons g outer => exact h.2

/-- What is nested depends on the schedule of the innermost frame only, not on where it stands. -/
theorem replace (h : Nested t (f :: outer)) (hg : g.schedule = f.schedule) : Nested t (g :: outer) := by
  cases outer with
  | nil => exact hg.trans h
  | cons g' outer =>
    refine ⟨?_, h.2⟩
    rw [hg]
    exact h.1

end Nested

/-! ## What a search keeps -/

namespace Search

variable {t : Bound.Schedule σ Bound.Passes} {depth : Nat} {x y : Search σ} {move : Move} {moves : List Move}

/-- A step that takes an item keeps the shape of the frames. -/
theorem shaped_step {f : Frame σ} {outer : List (Frame σ)} (h : Shaped t (f :: outer)) (hf : f.Sound)
    (hover : f.isOver = false) : Shaped t (f.step.1 :: outer) := by
  obtain ⟨_, _, _, _, hschedule, _⟩ := Frame.step_of_not_isOver hf hover
  have hfits := (h.fits f List.mem_cons_self).step hf hover
  have houter := fun g hg => h.fits g (List.mem_cons_of_mem f hg)
  exact ⟨h.nested.replace hschedule, List.forall_mem_cons.2 ⟨hfits, houter⟩⟩

theorem not_isOver_of_ne_pop {f : Frame σ} {w w' : World σ} {result : Except Error (Step σ)}
    (h : f.step.2 w = (result, w')) (hresult : result ≠ .ok .pop) : f.isOver = false := by
  cases hover : f.isOver with
  | false => rfl
  | true =>
    rw [Frame.step_of_isOver hover] at h
    cases h
    exact absurd rfl hresult

theorem Goes.shaped (h : Goes x move y) (hx : Stacked depth x.frames) (hshaped : Shaped t x.frames) :
    Shaped t y.frames := by
  cases h with
  | pop _ => exact ⟨hshaped.nested.tail, fun g hg => hshaped.fits g (List.mem_cons_of_mem _ hg)⟩
  | @descend f outer inner w w' hstep =>
    have hf := hx.1
    have hover := not_isOver_of_ne_pop hstep (by simp)
    have hframes := shaped_step hshaped hf hover
    obtain ⟨item, hget, heq⟩ := hf.step_eq hover
    obtain ⟨_, _, hmem⟩ := hf.not_isOver_of_step hstep (by simp)
    have hstart := (hf.enter (hmem inner rfl)).1
    -- the item that was taken is the schedule that the step leads into
    have hitem : inner.toItem = item := by
      rw [heq] at hstep
      exact (Frame.ne_pop_of_reach hstep).2 inner rfl
    have hholds : 0 < f.step.1.index ∧ f.step.1.schedule.items[f.step.1.index - 1]? = some inner.toItem := by
      rw [heq, hitem]
      dsimp only
      rw [Frame.schedule_turned, Nat.add_sub_cancel]
      exact ⟨Nat.succ_pos _, hget⟩
    exact ⟨⟨hholds, hframes.nested⟩, List.forall_mem_cons.2 ⟨hstart.fits_start, hframes.fits⟩⟩

theorem Run.shaped (h : Run x moves y) (hx : Stacked depth x.frames) (hshaped : Shaped t x.frames) :
    Shaped t y.frames := by
  induction h with
  | refl => exact hshaped
  | step hgoes _ ih => exact ih (hgoes.stacked hx) (hgoes.shaped hx hshaped)

theorem Ends.shaped {steps : Nat} {found : Option Binary64} {frames : List (Frame σ)} {w : World σ}
    (h : Ends x steps (.ok (found, frames)) w) (hx : Stacked depth x.frames) (hshaped : Shaped t x.frames) :
    Shaped t frames := by
  cases h with
  | nothing => exact hshaped
  | @interval f outer seconds w w' hstep =>
    exact shaped_step hshaped hx.1 (not_isOver_of_ne_pop hstep (by simp))

end Search

theorem Stacked.sound {depth : Nat} {frames : List (Frame σ)} (h : Stacked depth frames) {f : Frame σ}
    (hf : f ∈ frames) : f.Sound := by
  induction frames with
  | nil => cases hf
  | cons g outer ih =>
    rcases List.mem_cons.1 hf with rfl | hf
    · exact h.1
    · exact ih h.2.2 hf

/-- However a cursor was used, its frames are shaped. -/
theorem Cursor.Used.shaped {t : Bound.Schedule σ Bound.Passes} (ht : t.Solid) {c : Cursor σ} (h : c.Used t) :
    Shaped t c.frames := by
  induction h with
  | start => exact ⟨rfl, List.forall_mem_singleton.2 (Frame.sound_start ht).fits_start⟩
  | @next c w hused ih =>
    obtain ⟨hreach, hstacked⟩ := hused.stacked ht
    cases hfinished : c.finished with
    | true =>
      rw [next_of_finished hfinished]
      exact ih
    | false =>
      obtain ⟨moves, x, steps, result, w', hrun, hend, _, hnext⟩ := next_eq hfinished hreach hstacked w
      have hx := hrun.stacked hstacked
      have hshaped := hrun.shaped hstacked ih
      rw [hnext]
      rcases result with e | ⟨_ | seconds, frames⟩
      · exact ⟨trivial, fun _ hf => absurd hf List.not_mem_nil⟩
      · exact hend.shaped hx hshaped
      · exact hend.shaped hx hshaped

/-! ## Passes without end -/

/-- Two frames that differ in their counts of passes at most, and in these only if there is no end to them. -/
structure Frame.Alike (f g : Frame σ) : Prop where
  schedule : f.schedule = g.schedule
  index : f.index = g.index
  pass : f.schedule.passes ≠ .forever → f.pass = g.pass

/-- Two cursors whose frames are alike. -/
structure Cursor.Alike (c d : Cursor σ) : Prop where
  frames : List.Forall₂ Frame.Alike c.frames d.frames
  reach : c.reach = d.reach
  finished : c.finished = d.finished

namespace Frame.Alike

variable {f g : Frame σ}

theorem refl (f : Frame σ) : f.Alike f :=
  ⟨rfl, rfl, fun _ => rfl⟩

theorem turned (h : f.Alike g) : f.turned.Alike g.turned := by
  obtain ⟨hschedule, hindex, hpass⟩ := h
  by_cases hlast : f.schedule.items.length ≤ f.index
  · have hlast' : g.schedule.items.length ≤ g.index := by rwa [← hschedule, ← hindex]
    simp only [Frame.turned, hlast, hlast', if_true]
    exact ⟨hschedule, rfl, fun hpasses => congrArg (· + 1) (hpass hpasses)⟩
  · have hlast' : ¬ g.schedule.items.length ≤ g.index := by rwa [← hschedule, ← hindex]
    simp only [Frame.turned, hlast, hlast', if_false]
    exact ⟨hschedule, hindex, hpass⟩

theorem isComplete (h : f.Alike g) :
    f.schedule.passes.isComplete f.pass = g.schedule.passes.isComplete g.pass := by
  rw [← h.schedule]
  cases hpasses : f.schedule.passes with
  | forever => rfl
  | times n => rw [h.pass (by simp [hpasses])]

/-- Frames that are alike make the same step, and are alike after it. -/
theorem step (h : f.Alike g) : f.step.2 = g.step.2 ∧ f.step.1.Alike g.step.1 := by
  have hturned := h.turned
  have hcomplete := hturned.isComplete
  unfold Frame.step
  dsimp only
  rw [hcomplete, hturned.schedule, hturned.index]
  split
  · exact ⟨rfl, hturned⟩
  · split
    · exact ⟨rfl, hturned⟩
    · exact ⟨rfl, rfl, rfl, fun hpasses => hturned.pass (hturned.schedule ▸ hpasses)⟩

end Frame.Alike

namespace Cursor

/-- Walks over frames that are alike come to the same, and leave frames that are alike. -/
theorem walk_alike (steps : Nat) {frames frames' : List (Frame σ)} (h : List.Forall₂ Frame.Alike frames frames')
    (w : World σ) :
    (∃ e v, walk steps frames w = (.error e, v) ∧ walk steps frames' w = (.error e, v)) ∨
      ∃ found l l' v, walk steps frames w = (.ok (found, l), v) ∧ walk steps frames' w = (.ok (found, l'), v) ∧
        List.Forall₂ Frame.Alike l l' := by
  induction steps generalizing frames frames' w with
  | zero =>
    cases h with
    | nil => exact .inr ⟨none, [], [], w, rfl, rfl, .nil⟩
    | cons hf houter => exact .inr ⟨none, _, _, w, rfl, rfl, .cons hf houter⟩
  | succ steps ih =>
    cases h with
    | nil => exact .inr ⟨none, [], [], w, rfl, rfl, .nil⟩
    | @cons f g outer outer' hf houter =>
      obtain ⟨hsame, halike⟩ := hf.step
      rcases hstep : g.step.2 w with ⟨e | step, v⟩
      · have hstep' := hstep
        rw [← hsame] at hstep'
        refine .inl ⟨e, v, ?_, ?_⟩
        · rw [walk, Host.bind_of_error hstep']
        · rw [walk, Host.bind_of_error hstep]
      · have hstep' := hstep
        rw [← hsame] at hstep'
        rw [walk, walk, Host.bind_of_ok hstep, Host.bind_of_ok hstep']
        cases step with
        | yield seconds => exact .inr ⟨some seconds, _, _, v, rfl, rfl, .cons halike houter⟩
        | descend inner => exact ih (.cons (.refl _) (.cons halike houter)) v
        | pop => exact ih houter v

/-- A pull does not consult the count of passes where there is no end to them. -/
theorem Alike.next {c d : Cursor σ} (h : c.Alike d) (w : World σ) :
    ∃ result c' d' v, c.next w = ((result, c'), v) ∧ d.next w = ((result, d'), v) ∧ c'.Alike d' := by
  cases hfinished : c.finished with
  | true =>
    have hfinished' : d.finished = true := h.finished ▸ hfinished
    exact ⟨_, c, d, w, next_of_finished hfinished w, next_of_finished hfinished' w, h⟩
  | false =>
    have hfinished' : d.finished = false := h.finished ▸ hfinished
    rcases walk_alike c.reach h.frames w with ⟨e, v, hwalk, hwalk'⟩ | ⟨found, l, l', v, hwalk, hwalk', hl⟩
    · rw [h.reach] at hwalk'
      rw [next_of_walk hfinished hwalk, next_of_walk hfinished' hwalk']
      exact ⟨_, _, _, v, rfl, rfl, .nil, h.reach, rfl⟩
    · rw [h.reach] at hwalk'
      rw [next_of_walk hfinished hwalk, next_of_walk hfinished' hwalk']
      cases found with
      | none => exact ⟨_, _, _, v, rfl, rfl, hl, h.reach, rfl⟩
      | some seconds => exact ⟨_, _, _, v, rfl, rfl, hl, h.reach, h.finished⟩

theorem Alike.next? {c d : Cursor σ} (h : c.Alike d) (w : World σ) :
    ∃ result c' d' v, c.next? w = ((result, c'), v) ∧ d.next? w = ((result, d'), v) ∧ c'.Alike d' := by
  cases hfinished : c.finished with
  | true =>
    have hfinished' : d.finished = true := h.finished ▸ hfinished
    exact ⟨none, c, d, w, next?_of_finished hfinished w, next?_of_finished hfinished' w, h⟩
  | false =>
    have hfinished' : d.finished = false := h.finished ▸ hfinished
    obtain ⟨result, c', d', v, hc, hd, halike⟩ := h.next w
    rw [next?_of_not_finished hfinished, next?_of_not_finished hfinished', hc, hd]
    exact ⟨offered result, c', d', v, rfl, rfl, halike⟩

/-- Cursors that are alike yield the same, however often they are pulled. -/
theorem Alike.take {c d : Cursor σ} (h : c.Alike d) (count : Nat) (w : World σ) :
    ∃ results c' d' v, c.take count w = ((results, c'), v) ∧ d.take count w = ((results, d'), v) ∧ c'.Alike d' := by
  induction count generalizing c d w with
  | zero => exact ⟨[], c, d, w, rfl, rfl, h⟩
  | succ count ih =>
    obtain ⟨result, c', d', v, hc, hd, halike⟩ := h.next? w
    rw [Cursor.take, Cursor.take, state_bind_apply, state_bind_apply, hc, hd]
    cases result with
    | none => exact ⟨[], c', d', v, rfl, rfl, halike⟩
    | some result =>
      obtain ⟨results, c'', d'', v', hc', hd', halike'⟩ := ih halike v
      dsimp only
      rw [state_bind_apply, state_bind_apply, hc', hd']
      exact ⟨result :: results, c'', d'', v', rfl, rfl, halike'⟩

end Cursor

/-- The frames of a cursor over a schedule of a bound program are shaped, whatever was pulled before. While a pull goes
on they stay so, and when the innermost frame turns to its next pass, its count is exact, is at most the number of its
passes, and reaches it at the front only. The schedules of these frames make their passes, no more and no fewer. And a
cursor that differs in the counts of passes without end yields the same, at the next pull and from then on. -/
theorem shaped_of_used {actions functions : Registry σ} {program : List Statement} {w₀ w₁ : World σ}
    {bound : List (Bound.Statement σ Bound.Passes)}
    (hbind : Statements.bind actions functions program w₀ = (.ok bound, w₁))
    {s : Bound.Statement σ Bound.Passes} (hs : s ∈ bound) {t : Bound.Schedule σ Bound.Passes}
    (ht : s.schedule.Within t) {c : Cursor σ} (hc : c.Used t) :
    Shaped t c.frames ∧
      (∀ w moves x, Search.Run ⟨c.frames, w⟩ moves x → Shaped t x.frames ∧
        ∀ f ∈ x.frames, f.Turns ∧ f.schedule.MakesPasses) ∧
      ∀ d, c.Alike d → ∀ w,
        (∃ result c' d' v, c.next w = ((result, c'), v) ∧ d.next w = ((result, d'), v) ∧ c'.Alike d') ∧
          ∀ count, ∃ results c' d' v,
            c.take count w = ((results, c'), v) ∧ d.take count w = ((results, d'), v) ∧ c'.Alike d' := by
  obtain ⟨source, _, hbinds⟩ := exists_binds_of_bind hbind hs
  have hsolid := ht.solid hbinds.solid
  have hshaped := hc.shaped hsolid
  obtain ⟨_, hstacked⟩ := hc.stacked hsolid
  refine ⟨hshaped, fun w moves x hrun => ⟨hrun.shaped hstacked hshaped, fun f hf => ?_⟩, fun d h w => ?_⟩
  · have hsound := (hrun.stacked hstacked).sound hf
    exact ⟨hsound.turns, hsound.solid.makesPasses⟩
  · exact ⟨h.next w, fun count => h.take count w⟩

/-- `ping()@[[1]:2]:*` after two pulls, and the same with a count of passes that is about to wrap around. -/
theorem shaped_of_used_pulsing :
    Statements.bind Sample.actions Sample.functions [Sample.pulsing] (.fresh 0)
        = (.ok [Sample.pulsingForever], .fresh 0) ∧
      ∃ c d : Cursor Nat, c.Used Sample.pulsingForever.schedule ∧ Shaped Sample.pulsingForever.schedule c.frames ∧
        c.Alike d ∧ c.frames.map (·.pass) = [1, 0] ∧ d.frames.map (·.pass) = [1, 18446744073709551615] ∧
          ∀ count, ∃ results c' d' v, c.take count (.fresh 7) = ((results, c'), v) ∧
            d.take count (.fresh 7) = ((results, d'), v) ∧ c'.Alike d' := by
  have hbind : Statements.bind Sample.actions Sample.functions [Sample.pulsing] (.fresh 0)
      = (.ok [Sample.pulsingForever], .fresh 0) := rfl
  have hused : Cursor.Used Sample.pulsingForever.schedule
      (((Cursor.start Sample.pulsingForever.schedule).next (.fresh 5)).1.2.next (.fresh 6)).1.2 :=
    .next _ (.next _ .start)
  have halike : Cursor.Alike
      (((Cursor.start Sample.pulsingForever.schedule).next (.fresh 5)).1.2.next (.fresh 6)).1.2
      ⟨[⟨⟨[.interval (.ofInt 1)], .times 2⟩, 1, 1⟩, ⟨Sample.pulsingForever.schedule, 18446744073709551615, 1⟩], 4,
        false⟩ :=
    ⟨.cons (.refl _) (.cons ⟨rfl, rfl, fun h => absurd rfl h⟩ .nil), rfl, rfl⟩
  obtain ⟨hshaped, _, hsame⟩ := shaped_of_used hbind (List.mem_singleton_self _) .self hused
  exact ⟨hbind, _, _, hused, hshaped, halike, rfl, rfl, (hsame _ halike (.fresh 7)).2⟩

end Cadence
