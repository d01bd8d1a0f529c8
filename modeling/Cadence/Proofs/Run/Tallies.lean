import Cadence.Proofs.Run.Completions

/-!
# Counts of firings in 64 bits

Firings are counted by natural numbers. A run fires at most once in each turn or step that it is granted, and never
beyond its limit: `Performance.permits_run` for one run, `Ensemble.Permitted.run` for several. A count of 64 bits, which
begins again after `2 ^ 64` firings, is therefore the same number if fewer turns or steps than that are granted, or the
limit is below that (`Bound.Statement.toNat_fired_run`, `Ensemble.toNat_fired_run`).
-/

namespace Cadence

variable {σ : Type}

/-- A number of firings that is possible after so many turns or steps. -/
structure Settings.Permits (settings : Settings) (granted fired : Nat) : Prop where
  le_granted : fired ≤ granted
  le_most : (fired : ℕ∞) ≤ settings.most

namespace Settings.Permits

variable {settings : Settings} {granted more fired : Nat}

theorem zero (settings : Settings) : settings.Permits 0 0 :=
  ⟨Nat.le_refl 0, zero_le⟩

theorem mono (h : settings.Permits granted fired) (hle : granted ≤ more) : settings.Permits more fired :=
  ⟨h.le_granted.trans hle, h.le_most⟩

/-- One more firing is possible if the limit is not reached. -/
theorem succ (h : settings.Permits granted fired) (hlt : (fired : ℕ∞) < settings.most) :
    settings.Permits (granted + 1) (fired + 1) := by
  refine ⟨Nat.succ_le_succ h.le_granted, ?_⟩
  exact_mod_cast Order.add_one_le_of_lt hlt

/-- So many firings are counted in 64 bits as they are. -/
theorem toNat_eq (h : settings.Permits granted fired) (hsize : min (granted : ℕ∞) settings.most < UInt64.size) :
    (UInt64.ofNat fired).toNat = fired := by
  have hle : (fired : ℕ∞) ≤ min (granted : ℕ∞) settings.most := le_min (by exact_mod_cast h.le_granted) h.le_most
  have hlt : fired < UInt64.size := by exact_mod_cast hle.trans_lt hsize
  exact UInt64.toNat_ofNat_of_lt hlt

end Settings.Permits

/-! ## One run -/

/-- How often a run has fired, as it stands. -/
def Standing.fired : Standing → Nat
  | .finished fired | .stopped fired _ | .underway fired => fired

theorem Performance.permits_run {settings : Settings} {granted fired : Nat} (h : settings.Permits granted fired)
    (turns : Nat) (p : Performance σ) (w : World σ) :
    settings.Permits (granted + turns) (p.run settings turns fired w).1.fired := by
  induction turns generalizing granted fired p w with
  | zero =>
    cases hreached : settings.isReached fired with
    | true =>
      rw [run_of_isReached hreached]
      exact h
    | false =>
      rw [run_zero hreached]
      exact h
  | succ turns ih =>
    have hstay : settings.Permits (granted + (turns + 1)) fired := h.mono (Nat.le_add_right granted _)
    cases hreached : settings.isReached fired with
    | true =>
      rw [run_of_isReached hreached]
      exact hstay
    | false =>
      have hnext : settings.Permits (granted + 1) (fired + 1) := h.succ (Settings.lt_most hreached)
      rw [run_succ hreached]
      rcases p.turn w with ⟨⟨_ | _ | _, p'⟩, w'⟩
      · exact hstay
      · exact hstay
      · -- a good turn, and then those of a run with one turn less
        have hrest := ih hnext p' w'
        rwa [Nat.add_assoc, Nat.add_comm 1] at hrest

/-- The firings of a run of a statement are counted in 64 bits as they are, if it is granted fewer than `2 ^ 64` turns
or its limit is smaller. -/
theorem Bound.Statement.toNat_fired_run (s : Bound.Statement σ Bound.Passes) {settings : Settings} {turns : Nat}
    (hsize : min (turns : ℕ∞) settings.most < UInt64.size) (w : World σ) :
    (UInt64.ofNat (s.run settings turns w).1.fired).toNat = (s.run settings turns w).1.fired := by
  have hrun := Performance.permits_run (.zero settings) turns (Performance.start s settings.pace) w
  rw [Nat.zero_add] at hrun
  exact hrun.toNat_eq hsize

/-! ## Several runs -/

/-- The firings of one of several runs are possible, and so is the one that it is about to make. -/
structure Task.Permitted (settings : Settings) (steps : Nat) (t : Task σ) : Prop where
  fired : settings.Permits steps t.fired
  firing : t.firing = true → (t.fired : ℕ∞) < settings.most

theorem Task.Permitted.mono {settings : Settings} {steps more : Nat} {t : Task σ} (h : t.Permitted settings steps)
    (hle : steps ≤ more) : t.Permitted settings more :=
  ⟨h.fired.mono hle, h.firing⟩

theorem Task.Permitted.goes {settings : Settings} {steps : Nat} {t t' : Task σ} {w w' : World σ}
    (h : t.Permitted settings steps) (hgoes : t.Goes settings w t' w') : t'.Permitted settings (steps + 1) := by
  cases hgoes with
  | pull hreached _ => exact ⟨h.fired.mono (Nat.le_succ steps), fun _ => Settings.lt_most hreached⟩
  | fire _ =>
    refine ⟨h.fired.succ (h.firing rfl), ?_⟩
    rintro ⟨⟩

/-- The firings of several runs, complete or not, are possible after so many steps. -/
structure Ensemble.Permitted (settings : Settings) (steps : Nat) (e : Ensemble σ) : Prop where
  tasks : ∀ t ∈ e.tasks, t.Permitted settings steps
  completions : ∀ c ∈ e.completions, settings.Permits steps c.fired

namespace Ensemble.Permitted

variable {settings : Settings} {steps : Nat} {e e' : Ensemble σ}

theorem start (statements : List (Bound.Statement σ Bound.Passes)) (settings : Settings) :
    (Ensemble.start statements settings).Permitted settings 0 where
  tasks := by
    intro t ht
    obtain ⟨i, hi, rfl⟩ := exists_of_mem_tasks_start ht
    refine ⟨.zero settings, ?_⟩
    rintro ⟨⟩
  completions := by
    rintro c ⟨⟩

theorem mono {more : Nat} (h : e.Permitted settings steps) (hle : steps ≤ more) : e.Permitted settings more :=
  ⟨fun t ht => (h.tasks t ht).mono hle, fun c hc => (h.completions c hc).mono hle⟩

theorem rearrange (h : e.Permitted settings steps) (hrearranges : e.Rearranges e') : e'.Permitted settings steps := by
  refine ⟨fun t ht => h.tasks t (hrearranges.tasks.mem_iff.1 ht), ?_⟩
  rw [hrearranges.completions]
  exact h.completions

/-- A step adds at most one firing to a run. -/
theorem step (h : e.Permitted settings steps) (clock : Clock) (w : World σ) :
    (e.step clock settings w).1.Permitted settings (steps + 1) := by
  have hmore := h.mono (Nat.le_succ steps)
  cases hqueue : e.queue with
  | nil => exact hmore.rearrange (step_of_nil clock hqueue w)
  | cons t queue =>
    have hall := hmore.tasks
    rw [tasks_of_queue hqueue, List.forall_mem_cons] at hall
    have ht : t.Permitted settings steps := by
      refine h.tasks t ?_
      rw [tasks_of_queue hqueue]
      exact List.mem_cons_self
    rcases t.goes_or_ends settings w with ⟨t', w', hgoes⟩ | ⟨error?, w', hends⟩
    · obtain ⟨e', hstep, hrearranges, _⟩ := step_of_goes clock hqueue hgoes
      have hfront : ({ e with queue := t' :: queue } : Ensemble σ).Permitted settings (steps + 1) :=
        ⟨List.forall_mem_cons.2 ⟨ht.goes hgoes, hall.2⟩, hmore.completions⟩
      rw [hstep]
      exact hfront.rearrange hrearranges
    · rw [step_of_ends clock hqueue hends]
      exact ⟨hall.2, List.forall_mem_append.2 ⟨hmore.completions, List.forall_mem_singleton.2 hall.1.fired⟩⟩

theorem run (h : e.Permitted settings steps) (clock : Clock) (more : Nat) (w : World σ) :
    (e.run clock settings more w).1.Permitted settings (steps + more) := by
  induction more generalizing e steps w with
  | zero => exact h
  | succ more ih =>
    rw [Ensemble.run]
    split
    · exact h.mono (Nat.le_add_right _ _)
    · have hrest := ih (h.step clock w) (e.step clock settings w).2
      rw [Nat.add_assoc, Nat.add_comm 1] at hrest
      exact hrest

end Ensemble.Permitted

/-- The firings of several runs, complete or not, are counted in 64 bits as they are, if fewer than `2 ^ 64` steps are
granted or the limit is smaller. -/
theorem Ensemble.toNat_fired_run (statements : List (Bound.Statement σ Bound.Passes)) {settings : Settings}
    {steps : Nat} (hsize : min (steps : ℕ∞) settings.most < UInt64.size) (clock : Clock) (w : World σ) :
    (∀ t ∈ ((start statements settings).run clock settings steps w).1.tasks,
        (UInt64.ofNat t.fired).toNat = t.fired) ∧
      ∀ c ∈ ((start statements settings).run clock settings steps w).1.completions,
        (UInt64.ofNat c.fired).toNat = c.fired := by
  have hrun := (Permitted.start statements settings).run clock steps w
  rw [Nat.zero_add] at hrun
  exact ⟨fun t ht => (hrun.tasks t ht).fired.toNat_eq hsize, fun c hc => (hrun.completions c hc).toNat_eq hsize⟩

end Cadence
