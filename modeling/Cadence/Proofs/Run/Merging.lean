import Cadence.Proofs.Run.Rotation
import Cadence.Run.Chorus
import Mathlib.Data.List.Forall2

/-!
# Merged performances take turns

On a clock on which no delay lasts, the part in front of the queue makes a whole turn of its performance before another
part does anything (`Chorus.nextFrom_immediate`). So the queue of a chorus goes through slots (`Rotation`), one for each
part that has not left, and what happens are turns in a cycle.
-/

namespace Cadence

variable {σ : Type}

theorem Performance.ended_of_broken {p p' : Performance σ} {w w' : World σ} {e : Error}
    (h : p.pull w = ((.broken e, p'), w')) : p'.ended = true := by
  cases hended : p.ended with
  | true =>
    rw [pull_of_ended hended] at h
    cases h
  | false =>
    rcases hnext : p.pairs.cursor.next w with ⟨⟨_ | _ | _, c⟩, v⟩
    · rw [pull_of_error hended hnext] at h
      cases h
      rfl
    · rw [pull_of_end hended hnext] at h
      cases h
    · rw [pull_of_interval hended hnext] at h
      cases h

/-- What a turn comes to among merged performances, at the time zero: it has the name of its statement's action. -/
def Turn.Comes (statements : List (Bound.Statement σ Bound.Passes)) (t : Turn σ) (happening : Happening) : Prop :=
  ∃ s, statements[t.slot.index]? = some s ∧ happening = ⟨s.action.name, 0, t.round.result⟩

/-- A part whose next turn is at a slot. -/
def Part.Stands (statements : List (Bound.Statement σ Bound.Passes)) (a : Slot) (part : Part σ) : Prop :=
  ∃ s p, statements[a.index]? = some s ∧ part = ⟨s.action.name, p, false⟩ ∧
    p.Stands s id (s.schedule.leaves.drop a.count)

/-- A part makes the turn of its slot, unless its schedule is used up, and after a good round it goes on at the next
slot. -/
theorem Part.Stands.turn {statements : List (Bound.Statement σ Bound.Passes)} {a : Slot} {part : Part σ}
    (h : Part.Stands statements a part) (w : World σ) :
    (∃ s p, statements[a.index]? = some s ∧ s.schedule.leaves.get? a.count = none ∧
        part.performance.turn w = ((none, p), w)) ∨
      ∃ (t : Turn σ) (p : Performance σ) (w' : World σ), t.slot = a ∧ t.Goes statements w w' ∧
        t.Comes statements ⟨part.name, 0, t.round.result⟩ ∧ part.performance.turn w = ((some t.round.result, p), w') ∧
        ((∃ value, t.round.result = .ok value) ∧ p.ended = false ∧
            Part.Stands statements a.next ⟨part.name, p, false⟩ ∨
          (∃ e, t.round.result = .error e) ∧ p.ended = true) := by
  obtain ⟨s, p, hs, rfl, hstands⟩ := h
  cases hleaves : s.schedule.leaves.drop a.count with
  | nil =>
    obtain ⟨p', hturn, _⟩ := (hleaves ▸ hstands : p.Stands s id Stream'.Seq.nil).turn_nil w
    exact .inl ⟨s, p', hs, get?_of_drop_eq_nil hleaves, hturn⟩
  | cons leaf rest =>
    obtain ⟨round, p', w', rfl, hgoes, hturn, hend⟩ :=
      (hleaves ▸ hstands : p.Stands s id (Stream'.Seq.cons leaf rest)).turn_cons w
    have hgoes' : Turn.Goes statements ⟨a, round⟩ w w' := ⟨s, hs, get?_of_drop_eq_cons hleaves, hgoes⟩
    refine .inr ⟨⟨a, round⟩, p', w', rfl, hgoes', ⟨s, hs, rfl⟩, hturn, ?_⟩
    rcases hend with ⟨hvalue, hstands'⟩ | herror
    · refine .inl ⟨hvalue, hstands'.underway, s, p', hs, rfl, ?_⟩
      rw [Slot.next, drop_succ_of_drop_eq_cons hleaves]
      exact hstands'
    · exact .inr herror

namespace Chorus

/-- The part in front makes a turn and goes to the back of the queue, unless it is over. If there is no turn, the next
part comes to the front. -/
theorem nextFrom_immediate {part : Part σ} (hidle : part.firing = false) (now : Nat) (queue : List (Part σ))
    (waiting : List (Nat × Part σ)) (w : World σ) :
    nextFrom .immediate now waiting (part :: queue) w = match part.performance.turn w with
      | ((none, _), w') => nextFrom .immediate now waiting queue w'
      | ((some result, p), w') => ((some ⟨part.name, now, result⟩,
          ⟨now, queue ++ (if p.ended then [] else [⟨part.name, p, false⟩]), waiting⟩), w') := by
  rw [Performance.turn, nextFrom, hidle]
  simp only [Bool.false_eq_true, if_false, state_bind_apply]
  rcases hpull : part.performance.pull w with ⟨⟨_ | e | seconds, p⟩, w'⟩
  · rfl
  · simp only [state_pure_apply, Performance.ended_of_broken hpull, if_true, List.append_nil]
  · rfl

variable {statements : List (Bound.Statement σ Bound.Passes)} {slots : List Slot} {queue : List (Part σ)}

/-- What happens next is the turn of the first part that has not left, if there is one. -/
theorem nextFrom_cases (h : List.Forall₂ (Part.Stands statements) slots queue) (w : World σ) :
    (nextFrom .immediate 0 [] queue w = ((none, ⟨0, [], []⟩), w) ∧ Rotation statements slots w [] [] w) ∨
      ∃ t last happening rest w', nextFrom .immediate 0 [] queue w = ((some happening, ⟨0, rest, []⟩), w') ∧
        Rotation statements slots w [t] last w' ∧ t.Comes statements happening ∧
        List.Forall₂ (Part.Stands statements) last rest := by
  induction h with
  | nil => exact .inl ⟨rfl, .stop⟩
  | @cons a part slots queue hpart hqueue ih =>
    have hidle : part.firing = false := by
      obtain ⟨_, _, _, rfl, _⟩ := hpart
      rfl
    rw [nextFrom_immediate hidle]
    rcases hpart.turn w with ⟨s, p, hs, hleaf, hturn⟩ | ⟨t, p, w', rfl, hgoes, hcomes, hturn, hend⟩
    · -- the schedule is used up, and the part leaves
      rw [hturn]
      rcases ih with ⟨hnext, hleft⟩ | ⟨t, last, happening, rest, w', hnext, hturns, hrest⟩
      · exact .inl ⟨hnext, .leave hs hleaf hleft⟩
      · exact .inr ⟨t, last, happening, rest, w', hnext, .leave hs hleaf hturns, hrest⟩
    · rw [hturn]
      dsimp only
      rcases hend with ⟨⟨value, hvalue⟩, hunderway, hstands⟩ | ⟨⟨e, herror⟩, hended⟩
      · rw [hunderway, if_neg Bool.false_ne_true]
        exact .inr ⟨t, _, _, _, w', rfl, .more hgoes hvalue .stop, hcomes,
          List.rel_append hqueue (.cons hstands .nil)⟩
      · rw [hended, if_pos rfl, List.append_nil]
        exact .inr ⟨t, _, _, _, w', rfl, .fail hgoes herror .stop, hcomes, hqueue⟩

theorem take_succ (clock : Clock) (c : Chorus σ) (count : Nat) (w : World σ) :
    c.take clock (count + 1) w = match c.next clock w with
      | ((none, c'), w') => (([], c'), w')
      | ((some happening, c'), w') =>
        ((happening :: (c'.take clock count w').1.1, (c'.take clock count w').1.2), (c'.take clock count w').2) := by
  rw [take, state_bind_apply]
  rcases c.next clock w with ⟨⟨_ | happening, c'⟩, w'⟩ <;> rfl

theorem take_of_empty (clock : Clock) {now : Nat} (count : Nat) (w : World σ) :
    (⟨now, [], []⟩ : Chorus σ).take clock count w = (([], ⟨now, [], []⟩), w) := by
  cases count with
  | zero => rfl
  | succ count =>
    rw [take_succ]
    rfl

/-- What is taken are the turns that the queue of slots comes to. There are as many as asked for, unless all parts have
left. -/
theorem exists_rotation (h : List.Forall₂ (Part.Stands statements) slots queue) (count : Nat) (w : World σ) :
    ∃ turns last happenings rest w',
      (⟨0, queue, []⟩ : Chorus σ).take .immediate count w = ((happenings, ⟨0, rest, []⟩), w') ∧
      Rotation statements slots w turns last w' ∧ List.Forall₂ (Turn.Comes statements) turns happenings ∧
      turns.length ≤ count ∧ (turns.length < count → last = [] ∧ rest = []) := by
  induction count generalizing slots queue w with
  | zero => exact ⟨[], slots, [], queue, w, rfl, .stop, .nil, Nat.le_refl _, fun h => absurd h (Nat.not_lt_zero _)⟩
  | succ count ih =>
    rcases nextFrom_cases h w with ⟨hnext, hleft⟩ | ⟨t, slots', happening, queue', v, hnext, hturn, hcomes, hqueue⟩
    · refine ⟨[], [], [], [], w, ?_, hleft, .nil, Nat.zero_le _, fun _ => ⟨rfl, rfl⟩⟩
      rw [take_succ, next, hnext]
    · obtain ⟨turns, last, happenings, rest, w', htake, hturns, hall, hlength, hend⟩ := ih hqueue v
      refine ⟨t :: turns, last, happening :: happenings, rest, w', ?_, hturn.trans hturns, .cons hcomes hall,
        Nat.succ_le_succ hlength, fun hfewer => hend (Nat.lt_of_succ_lt_succ hfewer)⟩
      rw [take_succ, next, hnext]
      dsimp only
      rw [htake]

theorem stands_start (h : ∀ s ∈ statements, s.schedule.Solid) :
    List.Forall₂ (Part.Stands statements) (firstCycle statements.length) (start statements).queue := by
  refine List.forall₂_iff_get.2 ⟨by simp [firstCycle, start], fun i hi hi' => ?_⟩
  have hlt : i < statements.length := by simpa [firstCycle] using hi
  refine ⟨statements[i], Performance.start statements[i] id, ?_, ?_, ?_⟩
  · simp [firstCycle, hlt]
  · simp [start]
  · have hstart : Performance.Stands statements[i] id statements[i].schedule.leaves
        (Performance.start statements[i] id) := Performance.stands_start (h statements[i] (List.getElem_mem hlt))
    simpa [firstCycle] using hstart

end Chorus

/-- Whatever number of happenings is taken from bound statements that are performed side by side, on a clock on which no
delay lasts, the happenings are turns in a cycle, and the journal is that of their rounds, one after the other. Each has
the name of the action of its statement. There are fewer than asked for only if every statement has left, and from then
on nothing happens. -/
theorem take_eq_roundRobin {statements : List (Bound.Statement σ Bound.Passes)} (h : ∀ s ∈ statements, s.IsBound)
    (count : Nat) (w : World σ) :
    ∃ turns happenings c w', (Chorus.start statements).take .immediate count w = ((happenings, c), w') ∧
      List.Forall₂ (Turn.Comes statements) turns happenings ∧ RoundRobin statements w turns w' ∧
      w'.journal = w.journal ++ (turns.flatMap fun t => t.round.events).toArray ∧ turns.length ≤ count ∧
      (turns.length < count →
        (∀ a : Slot, a.index < statements.length → a.Settled statements turns) ∧
          ∀ more v, c.take .immediate more v = (([], c), v)) := by
  have hstart := Chorus.stands_start fun s hs => (h s hs).solid
  obtain ⟨turns, last, happenings, rest, w', htake, hturns, hcomes, hlength, hend⟩ :=
    Chorus.exists_rotation hstart count w
  refine ⟨turns, happenings, _, w', htake, hcomes, hturns.roundRobin, hturns.goes.journal, hlength, ?_⟩
  intro hfewer
  obtain ⟨rfl, rfl⟩ := hend hfewer
  exact ⟨fun a ha => hturns.settled_of_nil ha, Chorus.take_of_empty .immediate⟩

theorem take_eq_roundRobin_tick :
    (∀ s ∈ [Sample.tickingTwice, Sample.tickingTwice], s.IsBound) ∧
      ∃ turns happenings w', List.Forall₂ (Turn.Comes [Sample.tickingTwice, Sample.tickingTwice]) turns happenings ∧
        RoundRobin [Sample.tickingTwice, Sample.tickingTwice] (.fresh 5) turns w' ∧ turns.length = 8 ∧
        happenings.map Happening.name = List.replicate 8 "ping" ∧
        w'.delays = [.ofInt 1, .ofInt 1, .ofInt 5, .ofInt 6, .ofInt 1, .ofInt 1, .ofInt 7, .ofInt 8] := by
  have hbind : Statements.bind Sample.actions Sample.functions [Sample.ticking (.times 2)] (.fresh 0)
      = (.ok [Sample.tickingTwice], .fresh 0) := rfl
  have hbound : ∀ s ∈ [Sample.tickingTwice, Sample.tickingTwice], s.IsBound := by
    intro s hs
    have hs : s = Sample.tickingTwice := by simpa using hs
    exact ⟨_, _, _, _, _, _, hbind, hs ▸ List.mem_singleton_self _⟩
  obtain ⟨turns, happenings, c, w', htake, hcomes, hturns, _⟩ := take_eq_roundRobin hbound 9 (.fresh 5)
  have hrun : (((Chorus.start [Sample.tickingTwice, Sample.tickingTwice]).take .immediate 9 (.fresh 5)).1.1).map
        Happening.name = List.replicate 8 "ping" ∧
      ((Chorus.start [Sample.tickingTwice, Sample.tickingTwice]).take .immediate 9 (.fresh 5)).2.delays
        = [.ofInt 1, .ofInt 1, .ofInt 5, .ofInt 6, .ofInt 1, .ofInt 1, .ofInt 7, .ofInt 8] := by
    decide +kernel
  rw [htake] at hrun
  have hlength : turns.length = 8 := by
    rw [hcomes.length_eq, ← List.length_map Happening.name, hrun.1, List.length_replicate]
  exact ⟨hbound, turns, happenings, w', hcomes, hturns, hlength, hrun⟩

end Cadence
