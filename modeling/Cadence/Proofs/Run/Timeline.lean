import Cadence.Proofs.Run.Leaves
import Cadence.Run.Chorus
import Mathlib.Algebra.BigOperators.Group.List.Basic

/-!
# Timelines

What several statements do on a clock is a row of acts: to pull an interval and ask for it as a delay, to call the
action, to leave. A statement that does something is at a `Stage` of its own, and each of its acts leads to the next
stage. In a `Timeline` every act is what its statement has to do next, and nothing is left undone that was due before
(`Act.InTurn`). From that alone it follows that the statements are punctual (`Timeline.punctual`): each does what it has
to do at the very time that its own delays add up to, whatever the others do.
-/

namespace Cadence

variable {σ : Type}

/-! ## Acts -/

/-- What a statement has to do next, and when. Before, it fired `count` times. -/
inductive Stage
  /-- To pull an interval. -/
  | pulling (count time : Nat)
  /-- To call its action, after a delay that it asked for. -/
  | firing (count time : Nat)
  /-- Nothing any more. -/
  | gone
deriving DecidableEq

def Stage.due? : Stage → Option Nat
  | .pulling _ time => some time
  | .firing _ time => some time
  | .gone => none

/-- What a statement does at an instant. -/
inductive Deed
  /-- It finds its schedule used up. -/
  | leave
  /-- It pulls, but the interval cannot be found. -/
  | fail (error : Error)
  /-- It pulls an interval, and asks for it as a delay. -/
  | ask (seconds : Binary64)
  /-- It calls its action. -/
  | fire (result : Except Error Value)

def Deed.delay? : Deed → Option Binary64
  | .ask seconds => some seconds
  | _ => none

/-- What a deed shows to those who take happenings. -/
def Deed.result? : Deed → Option (Except Error Value)
  | .fail e => some (.error e)
  | .fire result => some result
  | _ => none

def Deed.isFiring : Deed → Bool
  | .fire _ => true
  | _ => false

/-- What one of several statements does, and when. Before, it fired `count` times. -/
structure Act where
  index : Nat
  count : Nat
  time : Nat
  deed : Deed

namespace Act

/-- The stage at which a statement does it. -/
def before (a : Act) : Stage :=
  match a.deed with
  | .fire _ => .firing a.count a.time
  | _ => .pulling a.count a.time

/-- The stage to which it leads: a delay is over when the clock says, and after a good firing the next interval is to be
pulled at once. -/
def after (clock : Clock) (a : Act) : Stage :=
  match a.deed with
  | .leave => .gone
  | .fail _ => .gone
  | .ask seconds => .firing a.count (a.time + clock seconds)
  | .fire (.ok _) => .pulling (a.count + 1) a.time
  | .fire (.error _) => .gone

/-- What an act shows to those who take happenings, with the name of its statement's action. -/
def happening? (statements : List (Bound.Statement σ Bound.Passes)) (a : Act) : Option Happening := do
  let s ← statements[a.index]?
  let result ← a.deed.result?
  return ⟨s.action.name, a.time, result⟩

/-- An act in a world, and the world after it. A pull is one of the leaf after those for which the statement fired. -/
inductive Goes (statements : List (Bound.Statement σ Bound.Passes)) : Act → World σ → World σ → Prop
  | leave {i count time : Nat} {s : Bound.Statement σ Bound.Passes} {w : World σ} : statements[i]? = some s →
    s.schedule.leaves.get? count = none → Goes statements ⟨i, count, time, .leave⟩ w w
  | fail {i count time : Nat} {s : Bound.Statement σ Bound.Passes} {leaf : Leaf σ} {e : Error} {w w' : World σ} :
    statements[i]? = some s → s.schedule.leaves.get? count = some leaf → leaf.pull w = (.error e, w') →
    Goes statements ⟨i, count, time, .fail e⟩ w w'
  | ask {i count time : Nat} {s : Bound.Statement σ Bound.Passes} {leaf : Leaf σ} {seconds : Binary64}
    {w w' : World σ} : statements[i]? = some s → s.schedule.leaves.get? count = some leaf →
    leaf.pull w = (.ok seconds, w') → Goes statements ⟨i, count, time, .ask seconds⟩ w (w'.wait seconds)
  | fire {i count time : Nat} {s : Bound.Statement σ Bound.Passes} {result : Except Error Value} {w w' : World σ} :
    statements[i]? = some s → s.action.invoke w = (result, w') →
    Goes statements ⟨i, count, time, .fire result⟩ w w'

theorem due_before (a : Act) : a.before.due? = some a.time := by
  unfold before
  split <;> rfl

theorem le_due_after {clock : Clock} {a : Act} {time : Nat} (h : (a.after clock).due? = some time) :
    a.time ≤ time := by
  unfold after at h
  split at h <;> cases h
  · exact Nat.le_add_right _ _
  · exact Nat.le_refl _

theorem after_ask (clock : Clock) (i count time : Nat) (seconds : Binary64) :
    (⟨i, count, time, .ask seconds⟩ : Act).after clock = .firing count (time + clock seconds) :=
  rfl

/-- A statement begins only once. -/
theorem after_ne_start (clock : Clock) (a : Act) : a.after clock ≠ .pulling 0 0 := by
  unfold after
  split <;> intro h <;> cases h

end Act

/-- Acts that follow one another, each in the world that the one before it left. -/
inductive Acts (statements : List (Bound.Statement σ Bound.Passes)) : World σ → List Act → World σ → Prop
  | nil {w : World σ} : Acts statements w [] w
  | cons {a : Act} {acts : List Act} {w v w' : World σ} : a.Goes statements w v → Acts statements v acts w' →
    Acts statements w (a :: acts) w'

/-- The delays that a statement asks for in some acts, in order. -/
def delaysOf (i : Nat) (acts : List Act) : List Binary64 :=
  (acts.filter (·.index = i)).filterMap (·.deed.delay?)

/-- How often a statement fires in some acts. -/
def firingsOf (i : Nat) (acts : List Act) : Nat :=
  (acts.filter (·.index = i)).countP (·.deed.isFiring)

/-! ## Timelines -/

/-- An act is what its statement has to do next, nothing was due earlier, and all statements before that one have
begun. -/
structure Act.InTurn (stages : Nat → Stage) (a : Act) : Prop where
  stage : stages a.index = a.before
  due : ∀ j time, (stages j).due? = some time → a.time ≤ time
  begun : ∀ j < a.index, stages j ≠ .pulling 0 0

/-- Acts in turn, from the stages of all statements before them to those after them. -/
inductive Timeline (statements : List (Bound.Statement σ Bound.Passes)) (clock : Clock) :
    (Nat → Stage) → World σ → List Act → (Nat → Stage) → World σ → Prop
  | nil {stages : Nat → Stage} {w : World σ} : Timeline statements clock stages w [] stages w
  | cons {stages last : Nat → Stage} {a : Act} {acts : List Act} {w v w' : World σ} : a.InTurn stages →
    a.Goes statements w v →
    Timeline statements clock (Function.update stages a.index (a.after clock)) v acts last w' →
    Timeline statements clock stages w (a :: acts) last w'

/-- The stages before anything happens. -/
def Stage.ofStart (size : Nat) (i : Nat) : Stage :=
  if i < size then .pulling 0 0 else .gone

/-- The acts of statements that keep time. -/
structure Punctual (statements : List (Bound.Statement σ Bound.Passes)) (clock : Clock) (w : World σ) (acts : List Act)
    (w' : World σ) : Prop where
  goes : Acts statements w acts w'
  ordered : acts.Pairwise fun a b => a.time ≤ b.time
  /-- A statement pulls as often as it has fired, at the time that its delays add up to. -/
  pulled : ∀ (earlier later : List Act) (a : Act), acts = earlier ++ a :: later → a.deed.isFiring = false →
    firingsOf a.index earlier = a.count ∧ (delaysOf a.index earlier).length = a.count ∧
      a.time = ((delaysOf a.index earlier).map clock).sum
  /-- A statement fires when the delay that it asked for last is over. -/
  fired : ∀ (earlier later : List Act) (a : Act), acts = earlier ++ a :: later → a.deed.isFiring = true →
    firingsOf a.index earlier = a.count ∧ (delaysOf a.index earlier).length = a.count + 1 ∧
      a.time = ((delaysOf a.index earlier).map clock).sum
  /-- The statements begin in order. -/
  first : (acts.filter (·.before = .pulling 0 0)).map Act.index <+: List.range statements.length
  /-- All statements have begun before time passes. -/
  begun : ∀ (earlier later : List Act) (a : Act), acts = earlier ++ a :: later → 0 < a.time →
    ∀ i < statements.length, ∃ b ∈ earlier, b.index = i ∧ b.before = .pulling 0 0
  /-- What a statement has to do after an act is done before time goes on beyond it. -/
  prompt : ∀ (earlier middle later : List Act) (a b : Act), acts = earlier ++ a :: (middle ++ b :: later) →
    ∀ time, (a.after clock).due? = some time → time < b.time →
      ∃ c ∈ middle, c.index = a.index ∧ c.before = a.after clock
  /-- A statement that has left or failed does nothing any more. -/
  ended : ∀ (earlier later : List Act) (a : Act), acts = earlier ++ a :: later →
    a.after clock = .gone → ∀ b ∈ later, b.index ≠ a.index

/-- Nothing is left to do after some acts: every statement has begun, and whatever had to follow an act has followed. -/
structure Concluded (size : Nat) (clock : Clock) (acts : List Act) : Prop where
  begun : ∀ i < size, ∃ a ∈ acts, a.index = i ∧ a.before = .pulling 0 0
  followed : ∀ (earlier later : List Act) (a : Act), acts = earlier ++ a :: later → a.after clock ≠ .gone →
    ∃ c ∈ later, c.index = a.index ∧ c.before = a.after clock

/-! ## The tally of a statement -/

section Tally

theorem delaysOf_append (i : Nat) (acts more : List Act) :
    delaysOf i (acts ++ more) = delaysOf i acts ++ delaysOf i more := by
  rw [delaysOf, List.filter_append, List.filterMap_append]
  rfl

theorem firingsOf_append (i : Nat) (acts more : List Act) :
    firingsOf i (acts ++ more) = firingsOf i acts + firingsOf i more := by
  rw [firingsOf, List.filter_append, List.countP_append]
  rfl

/-- A stage agrees with the delays and the firings that the acts of its statement come to. -/
def Stage.Tallies (clock : Clock) (firings : Nat) (delays : List Binary64) : Stage → Prop
  | .pulling count time => firings = count ∧ delays.length = count ∧ time = (delays.map clock).sum
  | .firing count time => firings = count ∧ delays.length = count + 1 ∧ time = (delays.map clock).sum
  | .gone => True

theorem Act.tallies_after {clock : Clock} {a : Act} {past : List Act}
    (h : a.before.Tallies clock (firingsOf a.index past) (delaysOf a.index past)) :
    (a.after clock).Tallies clock (firingsOf a.index (past ++ [a])) (delaysOf a.index (past ++ [a])) := by
  obtain ⟨i, count, time, deed⟩ := a
  rw [firingsOf_append, delaysOf_append]
  cases deed with
  | leave => trivial
  | fail e => trivial
  | ask seconds =>
    obtain ⟨hfirings, hlength, htime⟩ := h
    have hdelay : delaysOf i [⟨i, count, time, .ask seconds⟩] = [seconds] := by simp [delaysOf, Deed.delay?]
    have hfiring : firingsOf i [⟨i, count, time, .ask seconds⟩] = 0 := by simp [firingsOf, Deed.isFiring]
    rw [hdelay, hfiring, Act.after_ask]
    refine ⟨hfirings, ?_, ?_⟩
    · rw [List.length_append, hlength]
      rfl
    · rw [List.map_append, List.sum_append, ← htime]
      simp
  | fire result =>
    obtain ⟨hfirings, hlength, htime⟩ := h
    cases result with
    | error e => trivial
    | ok value =>
      have hdelay : delaysOf i [⟨i, count, time, .fire (.ok value)⟩] = [] := by simp [delaysOf, Deed.delay?]
      have hfiring : firingsOf i [⟨i, count, time, .fire (.ok value)⟩] = 1 := by simp [firingsOf, Deed.isFiring]
      show Stage.Tallies clock _ _ (.pulling (count + 1) time)
      rw [hdelay, hfiring, List.append_nil]
      exact ⟨congrArg (· + 1) hfirings, hlength, htime⟩

end Tally

namespace Timeline

variable {statements : List (Bound.Statement σ Bound.Passes)} {clock : Clock} {stages last : Nat → Stage}
  {acts more : List Act} {w v w' : World σ}

theorem append {middle : Nat → Stage} (h : Timeline statements clock stages w acts middle v)
    (h' : Timeline statements clock middle v more last w') :
    Timeline statements clock stages w (acts ++ more) last w' := by
  induction h with
  | nil => exact h'
  | cons hturn hgoes _ ih => exact .cons hturn hgoes (ih h')

theorem of_append (h : Timeline statements clock stages w (acts ++ more) last w') :
    ∃ middle v, Timeline statements clock stages w acts middle v ∧
      Timeline statements clock middle v more last w' := by
  induction acts generalizing stages w with
  | nil => exact ⟨stages, w, .nil, h⟩
  | cons a acts ih =>
    cases h with
    | cons hturn hgoes hrest =>
      obtain ⟨middle, v, hacts, hmore⟩ := ih hrest
      exact ⟨middle, v, .cons hturn hgoes hacts, hmore⟩

/-- Before each of its acts a timeline has come to stages at which the act is in turn. -/
theorem of_split {earlier later : List Act} {a : Act}
    (h : Timeline statements clock stages w (earlier ++ a :: later) last w') :
    ∃ middle v v', Timeline statements clock stages w earlier middle v ∧ a.InTurn middle ∧
      Timeline statements clock (Function.update middle a.index (a.after clock)) v' later last w' := by
  obtain ⟨middle, v, hearlier, hrest⟩ := h.of_append
  cases hrest with
  | cons hturn _ hlater => exact ⟨middle, v, _, hearlier, hturn, hlater⟩

theorem goes (h : Timeline statements clock stages w acts last w') : Acts statements w acts w' := by
  induction h with
  | nil => exact .nil
  | cons _ hgoes _ ih => exact .cons hgoes ih

/-- After an act, its statement has nothing to do before the time of the act, and the others have to do what they had to
do before. -/
theorem due_update {a : Act} {j time : Nat}
    (h : (Function.update stages a.index (a.after clock) j).due? = some time) :
    a.time ≤ time ∨ (stages j).due? = some time := by
  by_cases hj : j = a.index
  · rw [hj, Function.update_self] at h
    exact .inl (Act.le_due_after h)
  · rw [Function.update_of_ne hj] at h
    exact .inr h

/-- If nothing is due before a time, nothing happens before it. -/
theorem le_time (h : Timeline statements clock stages w acts last w') {least : Nat}
    (hstages : ∀ j time, (stages j).due? = some time → least ≤ time) : ∀ a ∈ acts, least ≤ a.time := by
  induction h with
  | nil =>
    intro a ha
    cases ha
  | @cons stages last a acts w v w' hturn _ _ ih =>
    have hleast : least ≤ a.time := hstages a.index a.time (by rw [hturn.stage, a.due_before])
    refine List.forall_mem_cons.2 ⟨hleast, ih fun j time hdue => ?_⟩
    rcases due_update hdue with hle | hdue
    · exact Nat.le_trans hleast hle
    · exact hstages j time hdue

theorem ordered (h : Timeline statements clock stages w acts last w') :
    acts.Pairwise fun a b => a.time ≤ b.time := by
  induction h with
  | nil => exact .nil
  | @cons stages last a acts w v w' hturn _ hrest ih =>
    refine .cons (hrest.le_time fun j time hdue => ?_) ih
    rcases due_update hdue with hle | hdue
    · exact hle
    · exact hturn.due j time hdue

/-- A statement stays where it is, or does what it has to do next. -/
theorem stage_eq_or (h : Timeline statements clock stages w acts last w') (i : Nat) :
    last i = stages i ∨ ∃ c ∈ acts, c.index = i ∧ c.before = stages i := by
  induction h with
  | nil => exact .inl rfl
  | @cons stages last a acts w v w' hturn _ _ ih =>
    by_cases hi : i = a.index
    · exact .inr ⟨a, List.mem_cons_self, hi.symm, hi ▸ hturn.stage.symm⟩
    · rw [Function.update_of_ne hi] at ih
      rcases ih with hlast | ⟨c, hc, hindex, hbefore⟩
      · exact .inl hlast
      · exact .inr ⟨c, List.mem_cons_of_mem a hc, hindex, hbefore⟩

/-- A statement that is gone does nothing. -/
theorem index_ne_of_gone (h : Timeline statements clock stages w acts last w') {i : Nat} (hi : stages i = .gone) :
    ∀ a ∈ acts, a.index ≠ i := by
  induction h with
  | nil =>
    intro a ha
    cases ha
  | @cons stages last a acts w v w' hturn _ _ ih =>
    have hne : a.index ≠ i := by
      rintro rfl
      have hdue := a.due_before
      rw [← hturn.stage, hi] at hdue
      cases hdue
    refine List.forall_mem_cons.2 ⟨hne, ih ?_⟩
    rw [Function.update_of_ne hne.symm]
    exact hi

/-- Stages that agree with what was done before agree with what is done until the end. -/
theorem tallies (h : Timeline statements clock stages w acts last w') {past : List Act}
    (hpast : ∀ i, (stages i).Tallies clock (firingsOf i past) (delaysOf i past)) (i : Nat) :
    (last i).Tallies clock (firingsOf i (past ++ acts)) (delaysOf i (past ++ acts)) := by
  induction h generalizing past with
  | nil =>
    rw [List.append_nil]
    exact hpast i
  | @cons stages last a acts w v w' hturn _ _ ih =>
    rw [List.append_cons]
    refine ih fun j => ?_
    by_cases hj : j = a.index
    · rw [hj, Function.update_self]
      exact Act.tallies_after (hturn.stage ▸ hpast a.index)
    · rw [Function.update_of_ne hj, firingsOf_append, delaysOf_append]
      have hnone : [a].filter (·.index = j) = [] := by simpa using fun h : a.index = j => hj h.symm
      rw [firingsOf, delaysOf, firingsOf, delaysOf, hnone]
      simpa [firingsOf, delaysOf] using hpast j

/-- If the statements from `m` on have not begun, they begin in order. -/
theorem first (h : Timeline statements clock stages w acts last w') {m n : Nat}
    (hstages : ∀ i, stages i = .pulling 0 0 ↔ m ≤ i ∧ i < n) :
    (acts.filter (·.before = .pulling 0 0)).map Act.index <+: List.range' m (n - m) := by
  induction h generalizing m with
  | nil => exact List.nil_prefix
  | @cons stages last a acts w v w' hturn _ _ ih =>
    by_cases ha : a.before = .pulling 0 0
    · obtain ⟨hle, hlt⟩ := (hstages a.index).1 (hturn.stage.trans ha)
      have hm : a.index = m := by
        -- one before it that has not begun would have to begin first
        by_contra hne
        have hlt' : m < a.index := Nat.lt_of_le_of_ne hle (Ne.symm hne)
        exact hturn.begun m hlt' ((hstages m).2 ⟨Nat.le_refl m, Nat.lt_trans hlt' hlt⟩)
      have hrange : List.range' m (n - m) = m :: List.range' (m + 1) (n - (m + 1)) := by
        rw [show n - m = n - (m + 1) + 1 by omega, List.range'_succ]
      rw [List.filter_cons_of_pos (by simpa using ha), List.map_cons, hm, hrange]
      refine List.cons_prefix_cons.2 ⟨rfl, ih fun i => ?_⟩
      by_cases hi : i = a.index
      · rw [hi, Function.update_self]
        exact iff_of_false (a.after_ne_start clock) (by omega)
      · rw [Function.update_of_ne hi, hstages i]
        omega
    · rw [List.filter_cons_of_neg (by simpa using ha)]
      refine ih fun i => ?_
      by_cases hi : i = a.index
      · rw [hi, Function.update_self]
        refine iff_of_false (a.after_ne_start clock) fun h => ha ?_
        rw [← hturn.stage]
        exact (hstages a.index).2 h
      · rw [Function.update_of_ne hi]
        exact hstages i

theorem tallies_ofStart (clock : Clock) (size i : Nat) :
    (Stage.ofStart size i).Tallies clock (firingsOf i []) (delaysOf i []) := by
  unfold Stage.ofStart
  split
  · exact ⟨rfl, rfl, rfl⟩
  · trivial

section Start

variable (h : Timeline statements clock (Stage.ofStart statements.length) w acts last w')

include h

/-- Before each act of its statement, the stage of the statement agrees with what it has done. -/
theorem tallies_before {earlier later : List Act} {a : Act} (hacts : acts = earlier ++ a :: later) :
    a.before.Tallies clock (firingsOf a.index earlier) (delaysOf a.index earlier) := by
  subst hacts
  obtain ⟨middle, v, v', hearlier, hturn, _⟩ := h.of_split
  have htallies := hearlier.tallies (tallies_ofStart clock statements.length) a.index
  rwa [hturn.stage] at htallies

/-- In a timeline from the start, all statements are punctual. -/
theorem punctual : Punctual statements clock w acts w' where
  goes := h.goes
  ordered := h.ordered
  pulled := by
    rintro earlier later ⟨i, count, time, deed⟩ hacts hdeed
    have htallies := h.tallies_before hacts
    cases deed with
    | fire result => cases hdeed
    | leave => exact htallies
    | fail e => exact htallies
    | ask seconds => exact htallies
  fired := by
    rintro earlier later ⟨i, count, time, deed⟩ hacts hdeed
    have htallies := h.tallies_before hacts
    cases deed with
    | fire result => exact htallies
    | leave => cases hdeed
    | fail e => cases hdeed
    | ask seconds => cases hdeed
  first := by
    have hstages : ∀ i, Stage.ofStart statements.length i = .pulling 0 0 ↔ 0 ≤ i ∧ i < statements.length := by
      intro i
      simp [Stage.ofStart]
    rw [List.range_eq_range']
    exact h.first hstages
  begun := by
    rintro earlier later a rfl htime i hi
    obtain ⟨middle, v, v', hearlier, hturn, _⟩ := h.of_split
    have hstart : Stage.ofStart statements.length i = .pulling 0 0 := if_pos hi
    rcases hearlier.stage_eq_or i with hstage | ⟨b, hb, hindex, hbefore⟩
    · -- its first pull would still be left to do, at the time zero
      have hdue : (middle i).due? = some 0 := by rw [hstage, hstart, Stage.due?]
      exact absurd (hturn.due i 0 hdue) (Nat.not_le_of_lt htime)
    · exact ⟨b, hb, hindex, hbefore.trans hstart⟩
  prompt := by
    rintro earlier middle later a b rfl time hdue htime
    obtain ⟨_, _, _, _, _, hrest⟩ := h.of_split
    obtain ⟨stages, _, _, hmiddle, hturn, _⟩ := hrest.of_split
    rcases hmiddle.stage_eq_or a.index with hstage | ⟨c, hc, hindex, hbefore⟩
    · -- what it has to do would still be left when `b` is in turn
      rw [Function.update_self] at hstage
      exact absurd (hturn.due a.index time (hstage ▸ hdue)) (Nat.not_le_of_lt htime)
    · rw [Function.update_self] at hbefore
      exact ⟨c, hc, hindex, hbefore⟩
  ended := by
    rintro earlier later a rfl hgone
    obtain ⟨_, _, _, _, _, hlater⟩ := h.of_split
    refine hlater.index_ne_of_gone ?_
    rw [Function.update_self, hgone]

/-- If all statements are gone in the end, nothing is left to do. -/
theorem concluded (hlast : ∀ i, last i = .gone) : Concluded statements.length clock acts where
  begun := by
    intro i hi
    have hstart : Stage.ofStart statements.length i = .pulling 0 0 := if_pos hi
    rcases h.stage_eq_or i with hstage | ⟨a, ha, hindex, hbefore⟩
    · rw [hlast i, hstart] at hstage
      cases hstage
    · exact ⟨a, ha, hindex, hbefore.trans hstart⟩
  followed := by
    rintro earlier later a rfl hafter
    obtain ⟨_, _, _, _, _, hlater⟩ := h.of_split
    rcases hlater.stage_eq_or a.index with hstage | ⟨c, hc, hindex, hbefore⟩
    · rw [hlast, Function.update_self] at hstage
      exact absurd hstage.symm hafter
    · rw [Function.update_self] at hbefore
      exact ⟨c, hc, hindex, hbefore⟩

end Start

end Timeline

end Cadence
