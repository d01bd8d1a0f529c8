import Cadence.Proofs.Run.Rounds
import Cadence.Run.Solo
import Mathlib.Data.ENat.Lattice

/-!
# Runs up to a limit

A run of a statement is a front part of its performance. It has as many rounds as the limit allows (`Settings.most`)
and the schedule has leaves, whichever is less, unless one of them fails; and nothing happens after the last of them.
The key fact compares a run with what is taken from the performance (`Performance.Stands.run_eq_take`). It is shown turn
by turn: the limit is looked at before a turn, and the end of the schedule is found by one (`Performance.run_succ`).
-/

namespace Cadence

open Stream' (Seq)
open Stream'.Seq (nil cons)

variable {σ : Type}

/-! ## Limits -/

namespace Settings

/-- How often a statement is fired at most, which may be without end. -/
def most (settings : Settings) : ℕ∞ :=
  settings.limit.elim ⊤ fun limit => (limit : ℕ∞)

theorem isReached_iff {settings : Settings} {fired : Nat} :
    settings.isReached fired = true ↔ settings.most ≤ (fired : ℕ∞) := by
  unfold isReached most
  cases settings.limit with
  | none => simp
  | some limit => simp

end Settings

/-! ## Runs turn by turn -/

/-- The number with which a run has finished, if it has. -/
def Standing.count? : Standing → Option Nat
  | .finished fired => some fired
  | .stopped _ _ => none
  | .underway _ => none

theorem Standing.eq_finished {standing : Standing} {fired : Nat} (h : standing.count? = some fired) :
    standing = .finished fired := by
  cases standing with
  | finished n =>
    cases h
    rfl
  | stopped n e => cases h
  | underway n => cases h

namespace Performance

variable {settings : Settings} {turns fired : Nat} {p : Performance σ}

/-- Nothing happens once the limit is reached. -/
theorem run_of_isReached (h : settings.isReached fired = true) (turns : Nat) (p : Performance σ) (w : World σ) :
    p.run settings turns fired w = (.finished fired, w) := by
  cases turns <;> rw [run, if_pos h] <;> rfl

theorem run_zero (h : settings.isReached fired = false) (p : Performance σ) (w : World σ) :
    p.run settings 0 fired w = (.underway fired, w) := by
  rw [run, if_neg (Bool.not_eq_true _ ▸ h)]
  rfl

theorem run_succ (h : settings.isReached fired = false) (turns : Nat) (p : Performance σ) (w : World σ) :
    p.run settings (turns + 1) fired w = match p.turn w with
      | ((none, _), w') => (.finished fired, w')
      | ((some (.error e), _), w') => (.stopped fired e, w')
      | ((some (.ok _), p'), w') => p'.run settings turns (fired + 1) w' := by
  rw [run, if_neg (Bool.not_eq_true _ ▸ h), state_bind_apply]
  rcases p.turn w with ⟨⟨_ | _ | _, p'⟩, w'⟩ <;> rfl

end Performance

/-! ## Rounds covered -/

/-- The number of rounds that a run covers which fired so often before and is granted so many turns: the first one at
which the turns are used up, the limit is reached, or no leaf is left. -/
structure Settings.Covers (settings : Settings) (turns fired : Nat) (leaves : Seq (Leaf σ)) (n : Nat) : Prop where
  le_turns : n ≤ turns
  isReached_before : ∀ k < n, settings.isReached (fired + k) = false
  leaf_before : ∀ k < n, leaves.get? k ≠ none
  ends : n = turns ∨ settings.isReached (fired + n) = true ∨ leaves.get? n = none

namespace Settings.Covers

variable {settings : Settings} {turns fired n : Nat} {leaf : Leaf σ} {leaves : Seq (Leaf σ)}

theorem of_eq_min (h : (n : ℕ∞) = min (turns : ℕ∞) (min settings.most leaves.length')) :
    settings.Covers turns 0 leaves n := by
  have hbefore : ∀ k < n, (k : ℕ∞) < min (turns : ℕ∞) (min settings.most leaves.length') := by
    intro k hk
    rw [← h]
    exact_mod_cast hk
  refine ⟨?_, fun k hk => ?_, fun k hk => ?_, ?_⟩
  · have hle : (n : ℕ∞) ≤ turns := h.trans_le (min_le_left _ _)
    exact_mod_cast hle
  · rw [Nat.zero_add, Bool.eq_false_iff, ne_eq, isReached_iff, not_le]
    exact (hbefore k hk).trans_le ((min_le_right _ _).trans (min_le_left _ _))
  · obtain ⟨leaf, hleaf⟩ := Stream'.Seq.lt_length'_iff.1
      ((hbefore k hk).trans_le ((min_le_right _ _).trans (min_le_right _ _)))
    exact Option.ne_none_iff_exists'.2 ⟨leaf, hleaf⟩
  · rw [Nat.zero_add, isReached_iff]
    rcases min_choice (turns : ℕ∞) (min settings.most leaves.length') with hmin | hmin
    · exact .inl (by exact_mod_cast h.trans hmin)
    · rcases min_choice settings.most leaves.length' with hmin' | hmin'
      · exact .inr (.inl (h.trans (hmin.trans hmin')).ge)
      · exact .inr (.inr (Stream'.Seq.length'_le_iff.1 (h.trans (hmin.trans hmin')).ge))

/-- Nothing is covered where the limit is reached. -/
theorem eq_zero_of_isReached (h : settings.Covers turns fired leaves n) (hreached : settings.isReached fired = true) :
    n = 0 := by
  refine Nat.eq_zero_of_not_pos fun hpos => ?_
  have hfalse := h.isReached_before 0 hpos
  rw [Nat.add_zero, hreached] at hfalse
  cases hfalse

theorem eq_zero_of_nil (h : settings.Covers turns fired (nil : Seq (Leaf σ)) n) : n = 0 :=
  Nat.eq_zero_of_not_pos fun hpos => h.leaf_before 0 hpos (Stream'.Seq.get?_nil 0)

/-- With a turn granted and a leaf in front, the round for it is covered, and then the others. -/
theorem exists_of_cons (h : settings.Covers (turns + 1) fired (cons leaf leaves) n)
    (hreached : settings.isReached fired = false) :
    ∃ m, n = m + 1 ∧ settings.Covers turns (fired + 1) leaves m := by
  have hshift : ∀ k, fired + (k + 1) = fired + 1 + k := fun k => by omega
  cases n with
  | zero =>
    rcases h.ends with hturns | hlimit | hleaf
    · cases hturns
    · rw [Nat.add_zero, hreached] at hlimit
      cases hlimit
    · rw [Stream'.Seq.get?_cons_zero] at hleaf
      cases hleaf
  | succ m =>
    refine ⟨m, rfl, Nat.le_of_succ_le_succ h.le_turns, fun k hk => ?_, fun k hk => ?_, ?_⟩
    · rw [← hshift]
      exact h.isReached_before (k + 1) (Nat.succ_lt_succ hk)
    · rw [← Stream'.Seq.get?_cons_succ leaf]
      exact h.leaf_before (k + 1) (Nat.succ_lt_succ hk)
    · rw [← hshift, ← Stream'.Seq.get?_cons_succ leaf]
      exact h.ends.imp_left Nat.succ.inj

end Settings.Covers

/-! ## Runs and what is taken -/

/-- How a run stands that fired so often before and is granted so many turns, when it made the rounds that it covers. If
all of them are good, it has finished when it came to its limit, or had a turn left in which it found no leaf; otherwise
it is stopped by the first one that failed, and no other round follows. -/
def Settings.LeavesAs (settings : Settings) (turns fired n : Nat) (rounds : List (Round σ)) (standing : Standing) :
    Prop :=
  (∀ round ∈ rounds, ∃ value, round.result = .ok value) ∧ rounds.length = n ∧
      standing = (if settings.isReached (fired + n) = true ∨ n < turns
        then .finished (fired + n) else .underway (fired + n)) ∨
    ∃ good last e, rounds = good ++ [last] ∧ (∀ round ∈ good, ∃ value, round.result = .ok value) ∧
      last.result = .error e ∧ good.length < n ∧ standing = .stopped (fired + good.length) e

namespace Settings.LeavesAs

variable {settings : Settings} {turns fired n : Nat} {round : Round σ} {rounds : List (Round σ)} {standing : Standing}

theorem none
    (h : standing = (if settings.isReached fired = true ∨ 0 < turns then .finished fired else .underway fired)) :
    settings.LeavesAs turns fired 0 ([] : List (Round σ)) standing :=
  .inl ⟨fun _ hround => absurd hround List.not_mem_nil, rfl, h⟩

theorem last {e : Error} (h : round.result = .error e) :
    settings.LeavesAs turns fired (n + 1) [round] (.stopped fired e) :=
  .inr ⟨[], round, e, rfl, fun _ hround => absurd hround List.not_mem_nil, h, Nat.succ_pos n, rfl⟩

/-- A good round in front takes one turn. -/
theorem more (hgood : ∃ value, round.result = .ok value)
    (h : settings.LeavesAs turns (fired + 1) n rounds standing) :
    settings.LeavesAs (turns + 1) fired (n + 1) (round :: rounds) standing := by
  have hshift : ∀ k, fired + 1 + k = fired + (k + 1) := fun k => by omega
  rcases h with ⟨hall, hlength, hstanding⟩ | ⟨good, last, e, rfl, hall, hlast, hlength, hstanding⟩
  · refine .inl ⟨List.forall_mem_cons.2 ⟨hgood, hall⟩, congrArg Nat.succ hlength, ?_⟩
    simp only [hstanding, hshift, Nat.add_lt_add_iff_right]
  · refine .inr ⟨round :: good, last, e, rfl, List.forall_mem_cons.2 ⟨hgood, hall⟩, hlast, Nat.succ_lt_succ hlength, ?_⟩
    rw [hstanding, hshift, List.length_cons]

end Settings.LeavesAs

namespace Performance

variable {settings : Settings} {s : Bound.Statement σ Bound.Passes} {rest : Seq (Leaf σ)} {p : Performance σ}

/-- A run makes the rounds that it covers, those of a performance from which as many are taken. -/
theorem Stands.run_eq_take (h : p.Stands s settings.pace rest) {turns fired n : Nat}
    (hn : settings.Covers turns fired rest n) (w : World σ) :
    ∃ (rounds : List (Round σ)) (p' : Performance σ) (w' : World σ),
      p.take n w = ((rounds.map Round.result, p'), w') ∧ Rounds settings.pace s.action rest w rounds w' ∧
      (p.run settings turns fired w).2 = w' ∧
      settings.LeavesAs turns fired n rounds (p.run settings turns fired w).1 := by
  induction turns generalizing p rest fired n w with
  | zero =>
    obtain rfl : n = 0 := Nat.le_zero.1 hn.le_turns
    cases hreached : settings.isReached fired with
    | true =>
      rw [run_of_isReached hreached]
      exact ⟨[], p, w, rfl, .none, rfl, .none (if_pos (.inl hreached)).symm⟩
    | false =>
      rw [run_zero hreached]
      exact ⟨[], p, w, rfl, .none, rfl, .none (if_neg (by simp [hreached])).symm⟩
  | succ turns ih =>
    cases hreached : settings.isReached fired with
    | true =>
      obtain rfl := hn.eq_zero_of_isReached hreached
      rw [run_of_isReached hreached]
      exact ⟨[], p, w, rfl, .none, rfl, .none (if_pos (.inl hreached)).symm⟩
    | false =>
      cases rest with
      | nil =>
        obtain rfl := hn.eq_zero_of_nil
        obtain ⟨p', hturn, _⟩ := h.turn_nil w
        rw [run_succ hreached, hturn]
        exact ⟨[], p, w, rfl, .none, rfl, .none (if_pos (.inr (Nat.succ_pos turns))).symm⟩
      | cons leaf rest =>
        obtain ⟨m, rfl, hm⟩ := hn.exists_of_cons hreached
        obtain ⟨round, p', v, rfl, hgoes, hturn, ⟨⟨value, hvalue⟩, hstands⟩ | ⟨⟨e, herror⟩, hended⟩⟩ := h.turn_cons w
        · -- a good round, and then those of a run with one turn less
          obtain ⟨rounds, p'', w', htake, hrounds, hworld, hleaves⟩ := ih hstands hm v
          have hrun : p.run settings (turns + 1) fired w = p'.run settings turns (fired + 1) v := by
            rw [run_succ hreached, hturn, hvalue]
          rw [hrun]
          refine ⟨round :: rounds, p'', w', ?_, .more hgoes hvalue hrounds, hworld, hleaves.more ⟨value, hvalue⟩⟩
          rw [Performance.take_succ, hturn]
          dsimp only
          rw [htake]
          rfl
        · -- a round that failed
          have hrun : p.run settings (turns + 1) fired w = (.stopped fired e, v) := by
            rw [run_succ hreached, hturn, herror]
          rw [hrun]
          refine ⟨[round], p', v, ?_, .last hgoes herror, rfl, .last herror⟩
          rw [Performance.take_succ, hturn]
          dsimp only
          rw [take_of_ended hended]
          rfl

end Performance

/-- A run of a statement of a bound program performs exactly its first rounds, each delay being the interval times the
time scale: as many as the limit allows and the schedule has leaves, whichever is less, up to the first one that fails.
They are what is taken from the performance at this pace, and what happens in them is all that happens; with the limit
zero nothing does. The run finishes with their number if all of them are good, and is stopped by the error of the last
one otherwise. It is still underway only if it used up the turns that it was granted, without having come to its
limit. -/
theorem run_eq_firstRounds {actions functions : Registry σ} {program : List Statement} {w₀ w₁ : World σ}
    {bound : List (Bound.Statement σ Bound.Passes)}
    (hbind : Statements.bind actions functions program w₀ = (.ok bound, w₁))
    {s : Bound.Statement σ Bound.Passes} (hs : s ∈ bound) (settings : Settings) (turns : Nat) (w : World σ) :
    ∃ (n : Nat) (rounds : List (Round σ)) (p : Performance σ) (w' : World σ),
      (n : ℕ∞) = min (turns : ℕ∞) (min settings.most s.schedule.leaves.length') ∧
      (Performance.start s settings.pace).take n w = ((rounds.map Round.result, p), w') ∧
      Rounds (fun interval => interval.mul settings.scale) s.action s.schedule.leaves w rounds w' ∧
      w'.journal = w.journal ++ (rounds.flatMap Round.events).toArray ∧
      (s.run settings turns w).2 = w' ∧
      ((∀ round ∈ rounds, ∃ value, round.result = .ok value) ∧ rounds.length = n ∧
          (s.run settings turns w).1
            = (if settings.isReached n = true ∨ n < turns then .finished n else .underway n) ∨
        ∃ good last e, rounds = good ++ [last] ∧ (∀ round ∈ good, ∃ value, round.result = .ok value) ∧
          last.result = .error e ∧ good.length < n ∧ (s.run settings turns w).1 = .stopped good.length e) ∧
      (settings.limit = some 0 → s.run settings turns w = (.finished 0, w)) := by
  obtain ⟨_, _, hbinds⟩ := exists_binds_of_bind hbind hs
  have hstart : (Performance.start s settings.pace).Stands s settings.pace s.schedule.leaves :=
    Performance.stands_start hbinds.solid
  obtain ⟨n, hn, _⟩ := ENat.le_natCast_iff.1 (min_le_left (turns : ℕ∞) (min settings.most s.schedule.leaves.length'))
  obtain ⟨rounds, p, w', htake, hrounds, hworld, hend⟩ := hstart.run_eq_take (Settings.Covers.of_eq_min hn.symm) w
  simp only [Settings.LeavesAs, Nat.zero_add] at hend
  refine ⟨n, rounds, p, w', hn.symm, htake, hrounds, hrounds.journal, hworld, hend, fun hlimit => ?_⟩
  refine Performance.run_of_isReached ?_ turns _ w
  rw [Settings.isReached, hlimit]
  rfl

/-- Three of the four intervals of `ping()@[1, tick()]:2`, at half the pace: the second call of `tick` is never made. -/
theorem run_eq_firstRounds_tick :
    Statements.bind Sample.actions Sample.functions [Sample.ticking (.times 2)] (.fresh 0)
        = (.ok [Sample.tickingTwice], .fresh 0) ∧
      Sample.tickingTwice ∈ [Sample.tickingTwice] ∧
      ∃ (rounds : List (Round Nat)) (w' : World Nat),
        Sample.tickingTwice.run ⟨.ofInt 2, some 3⟩ 9 (.fresh 5) = (.finished 3, w') ∧
        Rounds (fun interval => interval.mul (.ofInt 2)) Sample.tickingTwice.action
          Sample.tickingTwice.schedule.leaves (.fresh 5) rounds w' ∧
        rounds.length = 3 ∧ w'.state = 6 ∧ w'.delays = [.ofInt 2, .ofInt 10, .ofInt 2] := by
  have hbind : Statements.bind Sample.actions Sample.functions [Sample.ticking (.times 2)] (.fresh 0)
      = (.ok [Sample.tickingTwice], .fresh 0) := rfl
  have hs : Sample.tickingTwice ∈ [Sample.tickingTwice] := List.mem_singleton_self _
  have hran : (Sample.tickingTwice.run ⟨.ofInt 2, some 3⟩ 9 (.fresh 5)).1.count? = some 3 ∧
      (Sample.tickingTwice.run ⟨.ofInt 2, some 3⟩ 9 (.fresh 5)).2.state = 6 ∧
      (Sample.tickingTwice.run ⟨.ofInt 2, some 3⟩ 9 (.fresh 5)).2.delays = [.ofInt 2, .ofInt 10, .ofInt 2] := by
    decide +kernel
  obtain ⟨n, rounds, p, w', _, _, hrounds, _, hworld, hend, _⟩ :=
    run_eq_firstRounds hbind hs ⟨.ofInt 2, some 3⟩ 9 (.fresh 5)
  rcases hrun : Sample.tickingTwice.run ⟨.ofInt 2, some 3⟩ 9 (.fresh 5) with ⟨standing, v⟩
  rw [hrun] at hran hworld hend
  subst hworld
  obtain rfl : standing = .finished 3 := Standing.eq_finished hran.1
  refine ⟨hbind, hs, rounds, v, rfl, hrounds, ?_, hran.2⟩
  rcases hend with ⟨_, hlength, hend⟩ | ⟨_, _, _, _, _, _, _, hend⟩
  · split at hend
    · cases hend
      exact hlength
    · cases hend
  · cases hend

end Cadence
