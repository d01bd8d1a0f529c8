import Cadence.Proofs.Run.Limits
import Cadence.Proofs.Run.Timekeeping
import Cadence.Run.Ensemble

/-!
# Completions of runs side by side

Completions that come in any order are collected into the counts of the runs, each at the place of its own, and the
first of them with an error decides otherwise (`Completion.reports_collect`). In whatever order the runs of some
statements go on, and in whatever worlds, each of them completes at most once and with the number that its statement
has (`Ensemble.Sound.of_reaches`): a run goes on (`Task.Goes`) or ends (`Task.Ends`), and a step does no more than that.
-/

namespace Cadence

open Stream' (Seq)
open Stream'.Seq (nil cons)

variable {σ : Type}

/-! ## Collecting -/

/-- The error that is reported for one that stopped a run. -/
def Error.reported : Error → Error
  | .crashed => .runLost
  | e => e

namespace Completion

/-- The counts with one more completion, unless that has an error. -/
def enter (counts : List Nat) (c : Completion) : Except Error (List Nat) :=
  match c.error? with
  | none => .ok (counts.set c.index c.fired)
  | some e => .error e.reported

theorem enter_of_error {c : Completion} {e : Error} (h : c.error? = some e) (counts : List Nat) :
    c.enter counts = .error e.reported := by
  rw [enter, h]

theorem enter_of_none {c : Completion} (h : c.error? = none) (counts : List Nat) :
    c.enter counts = .ok (counts.set c.index c.fired) := by
  rw [enter, h]

theorem collect_eq_foldlM (size : Nat) (completions : List Completion) :
    collect size completions = completions.foldlM (fun counts c => c.enter counts) (List.replicate size 0) := by
  unfold collect
  congr 1
  funext counts c
  unfold enter
  rcases c.error? with _ | e
  · rfl
  · cases e <;> rfl

theorem collect_append (size : Nat) (completions others : List Completion) :
    collect size (completions ++ others)
      = (collect size completions).bind (others.foldlM fun counts c => c.enter counts) := by
  rw [collect_eq_foldlM, collect_eq_foldlM, List.foldlM_append]
  rfl

/-- Every run is complete, or one of them failed. -/
def Completes (size : Nat) (completions : List Completion) : Prop :=
  (∃ c ∈ completions, c.error?.isSome) ∨ (completions.map index).Perm (List.range size)

/-- What completions report, in the order in which they came: the count of each run at its own place, if none of them
has an error, and otherwise the error of the first one that has. -/
inductive Reports (size : Nat) (completions : List Completion) : Except Error (List Nat) → Prop
  | counts {counts : List Nat} : (∀ c ∈ completions, c.error? = none) → counts.length = size →
    (∀ c ∈ completions, counts[c.index]? = some c.fired) → Reports size completions (.ok counts)
  | error {before after : List Completion} {c : Completion} {e : Error} : completions = before ++ c :: after →
    (∀ b ∈ before, b.error? = none) → c.error? = some e → Reports size completions (.error e.reported)

/-- Completions without an error change the counts place by place. -/
theorem exists_collect (size : Nat) {completions : List Completion} (h : ∀ c ∈ completions, c.error? = none) :
    ∃ counts, collect size completions = .ok counts ∧ counts.length = size ∧
      ((completions.map index).Nodup → (∀ c ∈ completions, c.index < size) →
        ∀ c ∈ completions, counts[c.index]? = some c.fired) := by
  induction completions using List.reverseRecOn with
  | nil =>
    refine ⟨List.replicate size 0, rfl, List.length_replicate, fun _ _ c hc => ?_⟩
    cases hc
  | append_singleton before last ih =>
    rw [List.forall_mem_append, List.forall_mem_singleton] at h
    obtain ⟨counts, hcollect, hlength, hcounts⟩ := ih h.1
    refine ⟨counts.set last.index last.fired, ?_, ?_, ?_⟩
    · rw [collect_append, hcollect]
      exact congrArg (· >>= Pure.pure) (enter_of_none h.2 counts)
    · rw [List.length_set, hlength]
    · intro hnodup hlt
      rw [List.map_append, List.nodup_append] at hnodup
      rw [List.forall_mem_append, List.forall_mem_singleton] at hlt ⊢
      constructor
      · intro c hc
        have hne : last.index ≠ c.index :=
          (hnodup.2.2 c.index (List.mem_map_of_mem hc) last.index List.mem_cons_self).symm
        rw [List.getElem?_set_ne hne]
        exact hcounts hnodup.1 hlt.1 c hc
      · exact List.getElem?_set_self (hlength ▸ hlt.2)

/-- The first completion with an error decides, whatever comes after it. -/
theorem collect_of_error {size : Nat} {before : List Completion} {c : Completion} {e : Error}
    (hbefore : ∀ b ∈ before, b.error? = none) (h : c.error? = some e) (after : List Completion) :
    collect size (before ++ c :: after) = .error e.reported := by
  obtain ⟨counts, hcollect, _⟩ := exists_collect size hbefore
  rw [collect_append, hcollect]
  show (c.enter counts >>= fun counts => after.foldlM (fun counts c => c.enter counts) counts) = _
  rw [enter_of_error h]
  rfl

/-- The counts of runs that completed in any order are reported in the order of the runs. -/
theorem reports_collect {size : Nat} {completions : List Completion} (h : Completes size completions) :
    Reports size completions (collect size completions) := by
  cases hfind : completions.find? (·.error?.isSome) with
  | none =>
    have hsound : ∀ c ∈ completions, c.error? = none := by
      simpa [List.find?_eq_none] using hfind
    obtain ⟨counts, hcollect, hlength, hcounts⟩ := exists_collect size hsound
    rcases h with ⟨c, hc, hfailed⟩ | hperm
    · rw [hsound c hc] at hfailed
      cases hfailed
    · rw [hcollect]
      refine .counts hsound hlength (hcounts (hperm.nodup_iff.2 List.nodup_range) fun c hc => ?_)
      exact List.mem_range.1 (hperm.mem_iff.1 (List.mem_map_of_mem hc))
  | some c =>
    obtain ⟨hfailed, before, after, rfl, hbefore⟩ := List.find?_eq_some_iff_append.1 hfind
    obtain ⟨e, he⟩ := Option.isSome_iff_exists.1 hfailed
    have hsound : ∀ b ∈ before, b.error? = none := by
      simpa using hbefore
    rw [collect_of_error hsound he]
    exact .error rfl hsound he

example : collect 3 [⟨2, "ping", 4, none⟩, ⟨0, "ping", 1, none⟩, ⟨1, "ping", 0, none⟩] = .ok [1, 0, 4] := rfl

theorem error?_eq_none_of_collect {size : Nat} {completions : List Completion} {counts : List Nat}
    (h : collect size completions = .ok counts) : ∀ c ∈ completions, c.error? = none := by
  intro c hc
  by_contra hne
  have hreports : Reports size completions (collect size completions) :=
    reports_collect (.inl ⟨c, hc, Option.isSome_iff_ne_none.2 hne⟩)
  rw [h] at hreports
  cases hreports with
  | counts hnone => exact hne (hnone c hc)

end Completion

/-! ## Going on and ending -/

/-- A run goes on: it pulls an interval below its limit, or fires. -/
inductive Task.Goes (settings : Settings) : Task σ → World σ → Task σ → World σ → Prop
  | pull {i fired : Nat} {name : String} {p p' : Performance σ} {seconds : Binary64} {w w' : World σ} :
    settings.isReached fired = false → p.pull w = ((.due seconds, p'), w') →
    Goes settings ⟨i, name, p, fired, false⟩ w ⟨i, name, p', fired, true⟩ w'
  | fire {i fired : Nat} {name : String} {p p' : Performance σ} {value : Value} {w w' : World σ} :
    p.fire w = ((.ok value, p'), w') →
    Goes settings ⟨i, name, p, fired, true⟩ w ⟨i, name, p', fired + 1, false⟩ w'

/-- A run ends: at its limit or without a further interval, or by an error. -/
inductive Task.Ends (settings : Settings) : Task σ → World σ → Option Error → World σ → Prop
  | reached {i fired : Nat} {name : String} {p : Performance σ} {w : World σ} :
    settings.isReached fired = true → Ends settings ⟨i, name, p, fired, false⟩ w none w
  | nothing {i fired : Nat} {name : String} {p p' : Performance σ} {w w' : World σ} :
    settings.isReached fired = false → p.pull w = ((.nothing, p'), w') →
    Ends settings ⟨i, name, p, fired, false⟩ w none w'
  | broken {i fired : Nat} {name : String} {p p' : Performance σ} {e : Error} {w w' : World σ} :
    settings.isReached fired = false → p.pull w = ((.broken e, p'), w') →
    Ends settings ⟨i, name, p, fired, false⟩ w (some e) w'
  | failed {i fired : Nat} {name : String} {p p' : Performance σ} {e : Error} {w w' : World σ} :
    p.fire w = ((.error e, p'), w') → Ends settings ⟨i, name, p, fired, true⟩ w (some e) w'

theorem Task.goes_or_ends (settings : Settings) (t : Task σ) (w : World σ) :
    (∃ t' w', t.Goes settings w t' w') ∨ ∃ error? w', t.Ends settings w error? w' := by
  obtain ⟨i, name, p, fired, firing⟩ := t
  cases firing with
  | true =>
    rcases hfire : p.fire w with ⟨⟨e | value, p'⟩, w'⟩
    · exact .inr ⟨_, _, .failed hfire⟩
    · exact .inl ⟨_, _, .fire hfire⟩
  | false =>
    cases hreached : settings.isReached fired with
    | true => exact .inr ⟨_, _, .reached hreached⟩
    | false =>
      rcases hpull : p.pull w with ⟨⟨_ | e | seconds, p'⟩, w'⟩
      · exact .inr ⟨_, _, .nothing hreached hpull⟩
      · exact .inr ⟨_, _, .broken hreached hpull⟩
      · exact .inl ⟨_, _, .pull hreached hpull⟩

namespace Ensemble

/-- The runs that are not complete. -/
def tasks (e : Ensemble σ) : List (Task σ) :=
  e.queue ++ e.waiting.map Prod.snd

theorem tasks_of_queue {e : Ensemble σ} {t : Task σ} {queue : List (Task σ)} (hqueue : e.queue = t :: queue) :
    e.tasks = t :: (queue ++ e.waiting.map Prod.snd) := by
  rw [tasks, hqueue, List.cons_append]

/-- Before anything happens, every statement has a run that has not fired. -/
theorem exists_of_mem_tasks_start {statements : List (Bound.Statement σ Bound.Passes)} {settings : Settings}
    {t : Task σ} (h : t ∈ (start statements settings).tasks) : ∃ i, ∃ hi : i < statements.length,
      t = ⟨i, statements[i].action.name, Performance.start statements[i] settings.pace, 0, false⟩ := by
  rw [tasks, start, List.map_nil, List.append_nil] at h
  obtain ⟨i, hi, rfl⟩ := List.mem_mapIdx.1 h
  exact ⟨i, hi, rfl⟩

/-- The same runs, some of which may have come to wait, or to go on, and in another order. -/
structure Rearranges (e e' : Ensemble σ) : Prop where
  size : e'.size = e.size
  tasks : e'.tasks.Perm e.tasks
  completions : e'.completions = e.completions

theorem Rearranges.refl (e : Ensemble σ) : e.Rearranges e :=
  ⟨rfl, .refl _, rfl⟩

section Step

variable {settings : Settings} {e : Ensemble σ} {t t' : Task σ} {queue : List (Task σ)} {w w' : World σ}

theorem step_of_ends (clock : Clock) {error? : Option Error} (hqueue : e.queue = t :: queue)
    (h : t.Ends settings w error? w') : e.step clock settings w = (e.complete queue t error?, w') := by
  rw [step, hqueue]
  cases h with
  | reached hreached =>
    dsimp only
    rw [if_neg Bool.false_ne_true, if_pos hreached]
    exact rfl
  | nothing hreached hpull =>
    dsimp only
    rw [if_neg Bool.false_ne_true, if_neg (Bool.eq_false_iff.1 hreached), state_bind_apply, hpull]
    exact rfl
  | broken hreached hpull =>
    dsimp only
    rw [if_neg Bool.false_ne_true, if_neg (Bool.eq_false_iff.1 hreached), state_bind_apply, hpull]
    exact rfl
  | failed hfire =>
    dsimp only
    rw [if_pos rfl, state_bind_apply, hfire]
    exact rfl

/-- A run that goes on stays in front of the queue, or waits; it never waits if no delay lasts. -/
theorem step_of_goes (clock : Clock) (hqueue : e.queue = t :: queue) (h : t.Goes settings w t' w') :
    ∃ e', e.step clock settings w = (e', w') ∧ ({ e with queue := t' :: queue } : Ensemble σ).Rearranges e' ∧
      (clock = .immediate → e' = { e with queue := t' :: queue }) := by
  rw [step, hqueue]
  cases h with
  | @pull i fired name p p' seconds _ _ hreached hpull =>
    dsimp only
    rw [if_neg Bool.false_ne_true, if_neg (Bool.eq_false_iff.1 hreached), state_bind_apply, hpull]
    dsimp only
    by_cases hzero : clock seconds = 0
    · rw [if_pos hzero]
      exact ⟨_, rfl, .refl _, fun _ => rfl⟩
    · rw [if_neg hzero]
      refine ⟨_, rfl, ⟨rfl, ?_, rfl⟩, fun h => absurd (congrFun h seconds) hzero⟩
      simp only [tasks, List.map_append, List.map_cons, List.map_nil, ← List.append_assoc]
      exact List.perm_append_singleton _ _
  | fire hfire =>
    dsimp only
    rw [if_pos rfl, state_bind_apply, hfire]
    exact ⟨_, rfl, .refl _, fun _ => rfl⟩

/-- When no run can go on, time passes. -/
theorem step_of_nil (clock : Clock) (hqueue : e.queue = []) (w : World σ) :
    e.Rearranges (e.step clock settings w).1 := by
  rw [step, hqueue]
  dsimp only
  cases hdue : nextDue e.waiting with
  | none => exact .refl e
  | some found =>
    obtain ⟨due, ready, rest⟩ := found
    obtain ⟨_, _, hfound⟩ := Option.map_eq_some_iff.1 hdue
    cases hfound
    have hperm := (List.filter_append_perm (·.1 == due) e.waiting).map Prod.snd
    rw [List.map_append] at hperm
    refine ⟨rfl, ?_, rfl⟩
    show List.Perm _ (e.queue ++ e.waiting.map Prod.snd)
    rw [hqueue, List.nil_append]
    exact hperm

end Step

end Ensemble

/-! ## Runs of statements -/

/-- A run of one of some statements. It has gone through the leaves that come before its firings, and through one more
if it is to fire; they are no more than the limit allows. -/
inductive Task.At (statements : List (Bound.Statement σ Bound.Passes)) (settings : Settings) : Task σ → Prop
  | pulling {i fired : Nat} {s : Bound.Statement σ Bound.Passes} {p : Performance σ} : statements[i]? = some s →
    p.Used s → p.Stands s settings.pace (s.schedule.leaves.drop fired) →
    (fired : ℕ∞) ≤ min settings.most s.schedule.leaves.length' →
    At statements settings ⟨i, s.action.name, p, fired, false⟩
  | firing {i fired : Nat} {s : Bound.Statement σ Bound.Passes} {p : Performance σ} : statements[i]? = some s →
    p.Used s → p.Stands s settings.pace (s.schedule.leaves.drop (fired + 1)) →
    (fired : ℕ∞) < min settings.most s.schedule.leaves.length' →
    At statements settings ⟨i, s.action.name, p, fired, true⟩

/-- The completion of a run of one of some statements: without an error it fired as often as the limit allows and the
statement has leaves, whichever is less; with one it fired less often, and the error is that of a pull or a firing. -/
inductive Completion.Of (statements : List (Bound.Statement σ Bound.Passes)) (settings : Settings) : Completion → Prop
  | finished {i fired : Nat} {s : Bound.Statement σ Bound.Passes} : statements[i]? = some s →
    (fired : ℕ∞) = min settings.most s.schedule.leaves.length' → Of statements settings ⟨i, s.action.name, fired, none⟩
  | failed {i fired : Nat} {s : Bound.Statement σ Bound.Passes} {p : Performance σ} {w : World σ} {e : Error} :
    statements[i]? = some s → (fired : ℕ∞) < min settings.most s.schedule.leaves.length' → p.Used s →
    (p.pull w).1.1 = .broken e ∨ (p.fire w).1.1 = .error e → Of statements settings ⟨i, s.action.name, fired, some e⟩

/-- A pull finds nothing if and only if the leaves are used up, and otherwise goes through one of them. -/
theorem Performance.Stands.pull_drop {s : Bound.Statement σ Bound.Passes} {pace : Binary64 → Binary64} {count : Nat}
    {p : Performance σ} (h : p.Stands s pace (s.schedule.leaves.drop count)) (w : World σ) :
    (s.schedule.leaves.length' ≤ count ∧ ∃ p', p.pull w = ((.nothing, p'), w)) ∨
      ((count : ℕ∞) < s.schedule.leaves.length' ∧
        ((∃ seconds p' w', p.pull w = ((.due seconds, p'), w') ∧
            p'.Stands s pace (s.schedule.leaves.drop (count + 1))) ∨
          ∃ e p' w', p.pull w = ((.broken e, p'), w'))) := by
  cases hrest : s.schedule.leaves.drop count with
  | nil =>
    exact .inl ⟨Stream'.Seq.length'_le_iff.2 (get?_of_drop_eq_nil hrest),
      (hrest ▸ h : p.Stands s pace nil).pull_nil w⟩
  | cons leaf rest =>
    have hrest' : s.schedule.leaves.drop (count + 1) = rest := drop_succ_of_drop_eq_cons hrest
    refine .inr ⟨Stream'.Seq.lt_length'_iff.2 ⟨leaf, get?_of_drop_eq_cons hrest⟩, ?_⟩
    rcases (hrest ▸ h : p.Stands s pace (cons leaf rest)).pull_cons w with
      ⟨_, v, p', _, hdue, hstands⟩ | ⟨e, v, p', _, hbroken⟩
    · exact .inl ⟨_, p', _, hdue, hrest' ▸ hstands⟩
    · exact .inr ⟨e, p', v, hbroken⟩

theorem Settings.lt_most {settings : Settings} {fired : Nat} (h : settings.isReached fired = false) :
    (fired : ℕ∞) < settings.most := by
  rw [← not_le, ← isReached_iff, h]
  exact Bool.false_ne_true

namespace Task.At

variable {statements : List (Bound.Statement σ Bound.Passes)} {settings : Settings} {t t' : Task σ} {w w' : World σ}

theorem goes (h : t.At statements settings) (hgoes : t.Goes settings w t' w') :
    t'.At statements settings ∧ t'.index = t.index := by
  cases hgoes with
  | @pull i fired name p p' seconds _ _ hreached hpull =>
    cases h with
    | @pulling _ _ s _ hs hused hstands _ =>
      have hused' : p'.Used s := by
        have hnext := hused.pull w
        rwa [hpull] at hnext
      rcases hstands.pull_drop w with ⟨_, q, hq⟩ | ⟨hlt, ⟨_, q, v, hq, hstands'⟩ | ⟨_, q, v, hq⟩⟩
      · rw [hpull] at hq
        cases hq
      · rw [hpull] at hq
        cases hq
        exact ⟨.firing hs hused' hstands' (lt_min (Settings.lt_most hreached) hlt), rfl⟩
      · rw [hpull] at hq
        cases hq
  | @fire i fired name p p' value _ _ hfire =>
    cases h with
    | firing hs hused hstands hlt =>
      rcases hinvoke : p.pairs.action.invoke w with ⟨e | value', v⟩
      · rw [Performance.fire_of_error hinvoke] at hfire
        cases hfire
      · rw [Performance.fire_of_ok hinvoke] at hfire
        cases hfire
        refine ⟨.pulling hs hused hstands ?_, rfl⟩
        exact_mod_cast Order.add_one_le_of_lt hlt

theorem ends {error? : Option Error} (h : t.At statements settings) (hends : t.Ends settings w error? w') :
    Completion.Of statements settings ⟨t.index, t.name, t.fired, error?⟩ := by
  cases hends with
  | reached hreached =>
    cases h with
    | pulling hs _ _ hle =>
      exact .finished hs (le_antisymm hle ((min_le_left _ _).trans (Settings.isReached_iff.1 hreached)))
  | nothing _ hpull =>
    cases h with
    | pulling hs _ hstands hle =>
      rcases hstands.pull_drop w with ⟨hlength, _⟩ | ⟨_, ⟨_, q, v, hq, _⟩ | ⟨_, q, v, hq⟩⟩
      · exact .finished hs (le_antisymm hle ((min_le_right _ _).trans hlength))
      · rw [hpull] at hq
        cases hq
      · rw [hpull] at hq
        cases hq
  | broken hreached hpull =>
    cases h with
    | pulling hs hused hstands hle =>
      rcases hstands.pull_drop w with ⟨_, q, hq⟩ | ⟨hlt, _⟩
      · rw [hpull] at hq
        cases hq
      · exact .failed hs (lt_min (Settings.lt_most hreached) hlt) hused (.inl (by rw [hpull]))
  | failed hfire =>
    cases h with
    | firing hs hused _ hlt => exact .failed hs hlt hused (.inr (by rw [hfire]))

end Task.At

namespace Ensemble

variable {statements : List (Bound.Statement σ Bound.Passes)} {settings : Settings} {e e' : Ensemble σ}

/-- Each of the statements is run once or has completed once, and only the last completion may have an error. -/
structure Sound (statements : List (Bound.Statement σ Bound.Passes)) (settings : Settings) (e : Ensemble σ) : Prop where
  size : e.size = statements.length
  tasks : ∀ t ∈ e.tasks, t.At statements settings
  completions : ∀ c ∈ e.completions, c.Of statements settings
  indices : (e.tasks.map Task.index ++ e.completions.map Completion.index).Perm (List.range statements.length)
  errors : ∀ c ∈ e.completions.dropLast, c.error? = none

/-- What becomes of an ensemble when its runs go on in any order, whatever the clock says and in whatever worlds. -/
inductive Reaches (settings : Settings) (e : Ensemble σ) : Ensemble σ → Prop
  | refl : Reaches settings e e
  | rearrange {e' e'' : Ensemble σ} : Reaches settings e e' → e'.Rearranges e'' → Reaches settings e e''
  | step {e' : Ensemble σ} (clock : Clock) (w : World σ) : Reaches settings e e' → e'.isOver = false →
    Reaches settings e (e'.step clock settings w).1

theorem reaches_run (clock : Clock) (steps : Nat) (w : World σ) :
    e.Reaches settings (e.run clock settings steps w).1 := by
  suffices h : ∀ e', e.Reaches settings e' → e.Reaches settings (e'.run clock settings steps w).1 from h e .refl
  induction steps generalizing w with
  | zero => exact fun e' h => h
  | succ steps ih =>
    intro e' h
    rw [run]
    cases hover : e'.isOver with
    | true => exact h
    | false => exact ih _ _ (h.step clock w hover)

namespace Sound

theorem start (h : ∀ s ∈ statements, s.schedule.Solid) :
    (Ensemble.start statements settings).Sound statements settings where
  size := rfl
  tasks := by
    intro t ht
    obtain ⟨i, hi, rfl⟩ := exists_of_mem_tasks_start ht
    have hstands : (Performance.start statements[i] settings.pace).Stands statements[i] settings.pace
        statements[i].schedule.leaves := Performance.stands_start (h _ (List.getElem_mem hi))
    exact .pulling (List.getElem?_eq_getElem hi) (.start settings.pace) hstands zero_le
  completions := by
    intro c hc
    cases hc
  indices := by
    have hindices : (Ensemble.start statements settings).tasks.map Task.index = List.range statements.length := by
      refine List.ext_getElem ?_ fun i hi hi' => ?_
      · simp [Ensemble.tasks, Ensemble.start]
      · simp [Ensemble.tasks, Ensemble.start]
    rw [hindices, Ensemble.start, List.map_nil, List.append_nil]
  errors := by
    intro c hc
    cases hc

theorem rearrange (h : e.Sound statements settings) (hrearranges : e.Rearranges e') :
    e'.Sound statements settings where
  size := hrearranges.size.trans h.size
  tasks := fun t ht => h.tasks t (hrearranges.tasks.mem_iff.1 ht)
  completions := by
    rw [hrearranges.completions]
    exact h.completions
  indices := by
    rw [hrearranges.completions]
    exact ((hrearranges.tasks.map Task.index).append_right _).trans h.indices
  errors := by
    rw [hrearranges.completions]
    exact h.errors

/-- The run in front goes on. -/
theorem goes {t t' : Task σ} {queue : List (Task σ)} (h : e.Sound statements settings) (hqueue : e.queue = t :: queue)
    (ht' : t'.At statements settings) (hindex : t'.index = t.index) :
    ({ e with queue := t' :: queue } : Ensemble σ).Sound statements settings := by
  refine ⟨h.size, ?_, h.completions, ?_, h.errors⟩
  · have hall := h.tasks
    rw [tasks_of_queue hqueue, List.forall_mem_cons] at hall
    exact List.forall_mem_cons.2 ⟨ht', hall.2⟩
  · have hperm := h.indices
    rw [tasks_of_queue hqueue, List.map_cons, ← hindex] at hperm
    exact hperm

/-- The run in front ends, where no run had failed. -/
theorem complete {t : Task σ} {queue : List (Task σ)} {error? : Option Error} (h : e.Sound statements settings)
    (hover : e.isOver = false) (hqueue : e.queue = t :: queue)
    (hc : Completion.Of statements settings ⟨t.index, t.name, t.fired, error?⟩) :
    (e.complete queue t error?).Sound statements settings := by
  refine ⟨h.size, ?_, ?_, ?_, ?_⟩
  · have hall := h.tasks
    rw [tasks_of_queue hqueue, List.forall_mem_cons] at hall
    exact hall.2
  · exact List.forall_mem_append.2 ⟨h.completions, List.forall_mem_singleton.2 hc⟩
  · have hperm := h.indices
    rw [tasks_of_queue hqueue, List.map_cons, List.cons_append] at hperm
    have hcompletions : (e.complete queue t error?).completions.map Completion.index
        = e.completions.map Completion.index ++ [t.index] := List.map_append
    rw [hcompletions, ← List.append_assoc]
    exact (List.perm_append_singleton _ _).trans hperm
  · have hnone : ∀ c ∈ e.completions, c.error? = none := by
      simpa using (Bool.or_eq_false_iff.1 hover).2
    simpa [Ensemble.complete] using hnone

theorem step (h : e.Sound statements settings) (hover : e.isOver = false) (clock : Clock) (w : World σ) :
    (e.step clock settings w).1.Sound statements settings := by
  cases hqueue : e.queue with
  | nil => exact h.rearrange (step_of_nil clock hqueue w)
  | cons t queue =>
    have ht : t.At statements settings := by
      refine h.tasks t ?_
      rw [tasks_of_queue hqueue]
      exact List.mem_cons_self
    rcases t.goes_or_ends settings w with ⟨t', w', hgoes⟩ | ⟨error?, w', hends⟩
    · obtain ⟨ht', hindex⟩ := ht.goes hgoes
      obtain ⟨e', hstep, hrearranges, _⟩ := step_of_goes clock hqueue hgoes
      rw [hstep]
      exact (h.goes hqueue ht' hindex).rearrange hrearranges
    · rw [step_of_ends clock hqueue hends]
      exact h.complete hover hqueue (ht.ends hends)

theorem of_reaches (h : e.Sound statements settings) (hreaches : e.Reaches settings e') :
    e'.Sound statements settings := by
  induction hreaches with
  | refl => exact h
  | rearrange _ hrearranges ih => exact ih.rearrange hrearranges
  | step clock w _ hover ih => exact ih.step hover clock w

/-- When all is over, every run is complete, or the last completion is that of one that failed. -/
theorem completes (h : e.Sound statements settings) (hover : e.isOver = true) :
    Completion.Completes statements.length e.completions := by
  rcases Bool.or_eq_true_iff.1 hover with hempty | hfailed
  · obtain ⟨hqueue, hwaiting⟩ := Bool.and_eq_true_iff.1 hempty
    have hindices := h.indices
    rw [Ensemble.tasks, List.isEmpty_iff.1 hqueue, List.isEmpty_iff.1 hwaiting] at hindices
    exact .inr hindices
  · exact .inl (List.any_eq_true.1 hfailed)

end Sound

end Ensemble

/-! ## Counts of statements -/

/-- A run of a statement that comes to its limit or to the end of the schedule fired so often, in whatever world it is
made: as often as the limit allows and the schedule has leaves, whichever is less. -/
structure Bound.Statement.Counts (settings : Settings) (s : Bound.Statement σ Bound.Passes) (count : Nat) : Prop where
  eq_min : (count : ℕ∞) = min settings.most s.schedule.leaves.length'
  run : ∀ turns (w : World σ) fired w', s.run settings turns w = (.finished fired, w') → fired = count

theorem Bound.Statement.counts_of_eq_min {s : Bound.Statement σ Bound.Passes} (hsolid : s.schedule.Solid)
    {settings : Settings} {count : Nat} (h : (count : ℕ∞) = min settings.most s.schedule.leaves.length') :
    s.Counts settings count := by
  refine ⟨h, fun turns w fired w' hrun => ?_⟩
  obtain ⟨n, hn, _⟩ := ENat.le_natCast_iff.1 (min_le_left (turns : ℕ∞) (min settings.most s.schedule.leaves.length'))
  have hstart : (Performance.start s settings.pace).Stands s settings.pace s.schedule.leaves :=
    Performance.stands_start hsolid
  obtain ⟨_, _, _, _, _, _, hend⟩ := hstart.run_eq_take (Settings.Covers.of_eq_min hn.symm) w
  rw [← h, eq_comm] at hn
  rw [Bound.Statement.run] at hrun
  rw [hrun, Settings.LeavesAs, Nat.zero_add] at hend
  rcases hend with ⟨_, _, hend⟩ | ⟨_, _, _, _, _, _, _, hend⟩
  · split at hend
    · next hcomplete =>
      cases hend
      rcases hcomplete with hreached | hturns
      · have hle : (fired : ℕ∞) ≤ count := hn.trans_le (min_le_right _ _)
        have hge : (count : ℕ∞) ≤ fired := (h.trans_le (min_le_left _ _)).trans (Settings.isReached_iff.1 hreached)
        exact_mod_cast le_antisymm hle hge
      · rcases min_choice (turns : ℕ∞) count with hmin | hmin
        · have hall : fired = turns := by exact_mod_cast hn.trans hmin
          omega
        · exact_mod_cast hn.trans hmin
    · cases hend
  · cases hend

/-- When runs of the statements of a bound program are over, whatever order they went on in, they report the count of
each statement, or the error of the run that failed, which completed last. -/
theorem Ensemble.counts_of_reaches {actions functions : Registry σ} {program : List Statement} {w₀ w₁ : World σ}
    {bound : List (Bound.Statement σ Bound.Passes)}
    (hbind : Statements.bind actions functions program w₀ = (.ok bound, w₁)) {settings : Settings} {e : Ensemble σ}
    (hreaches : (start bound settings).Reaches settings e) (hover : e.isOver = true) :
    (∃ counts, e.counts = .ok counts ∧ List.Forall₂ (fun s n => s.Counts settings n) bound counts) ∨
      ∃ before c error, e.completions = before ++ [c] ∧ (∀ b ∈ before, b.error? = none) ∧ c.error? = some error ∧
        c.Of bound settings ∧ e.counts = .error error.reported := by
  have hsolid : ∀ s ∈ bound, s.schedule.Solid := by
    intro s hs
    obtain ⟨_, _, hbinds⟩ := exists_binds_of_bind hbind hs
    exact hbinds.solid
  have hsound : e.Sound bound settings := (Sound.start hsolid).of_reaches hreaches
  have hcompletes := hsound.completes hover
  have hreports : Completion.Reports bound.length e.completions e.counts := by
    rw [counts, hsound.size]
    exact Completion.reports_collect hcompletes
  generalize e.counts = result at hreports
  cases hreports with
  | @counts counts hnone hlength hcounts =>
    refine .inl ⟨counts, rfl, List.forall₂_iff_get.2 ⟨hlength.symm, fun i hi hi' => ?_⟩⟩
    have hmem : i ∈ e.completions.map Completion.index := by
      rcases hcompletes with ⟨c, hc, hfailed⟩ | hperm
      · rw [hnone c hc] at hfailed
        cases hfailed
      · exact hperm.mem_iff.2 (List.mem_range.2 hi)
    obtain ⟨c, hc, rfl⟩ := List.mem_map.1 hmem
    have hcount := hcounts c hc
    have herror := hnone c hc
    cases hsound.completions c hc with
    | finished hs heq =>
      obtain ⟨_, rfl⟩ := List.getElem?_eq_some_iff.1 hs
      obtain ⟨_, hget⟩ := List.getElem?_eq_some_iff.1 hcount
      rw [List.get_eq_getElem, List.get_eq_getElem, hget]
      exact Bound.Statement.counts_of_eq_min (hsolid _ (List.getElem_mem hi)) heq
    | failed => cases herror
  | @error before after c error hsplit hbefore herror =>
    -- no run goes on after one that failed, so the first failure is the last completion
    obtain rfl : after = [] := by
      by_contra hafter
      have hmem : c ∈ e.completions.dropLast := by
        rw [hsplit, List.dropLast_append_of_ne_nil (List.cons_ne_nil c after), List.dropLast_cons_of_ne_nil hafter]
        exact List.mem_append_right before List.mem_cons_self
      rw [hsound.errors c hmem] at herror
      cases herror
    refine .inr ⟨before, c, error, hsplit, hbefore, herror, ?_, rfl⟩
    refine hsound.completions c ?_
    rw [hsplit]
    exact List.mem_append_right before List.mem_cons_self

end Cadence
