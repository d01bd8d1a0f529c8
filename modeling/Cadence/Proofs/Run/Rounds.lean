import Cadence.Proofs.Run.Counts

/-!
# Rounds

A performance goes in rounds: the interval of the next leaf is looked for, the delay for it is asked for, and the
action is called. A `Round` is what one of them leaves in the journal and what it comes to, and `Rounds` are rounds that
follow one another, each in the world that the one before it left. The key facts: a turn of a performance is a round for
the first leaf that is left (`Performance.Stands.turn_cons`), and a performance that is over lets nothing happen
(`Performance.take_of_ended`).
-/

namespace Cadence

open Stream' (Seq)
open Stream'.Seq (nil cons)

variable {σ : Type}

/-! ## Rounds -/

/-- The callables that the interval of a leaf calls, in order. -/
def Leaf.callees : Leaf σ → List (Callable σ)
  | .interval _ => []
  | .call c => c.callees

theorem Bound.Call.ofCall_of_interval {c : Bound.Call σ} {value : Value} {e : Error}
    (h : c.interval value = .error e) : e.OfCall := by
  unfold Bound.Call.interval at h
  split at h
  · split at h
    · cases h
    · cases h
      trivial
  · cases h
    trivial

theorem Leaf.makes_pull (leaf : Leaf σ) : Makes leaf.callees leaf.pull := by
  cases leaf with
  | interval seconds => exact Makes.pure seconds
  | call c =>
    have hcall : Makes (c.callees ++ []) (Leaf.call c).pull :=
      c.makes_invoke.bind fun value => Makes.ofResult fun e h => Bound.Call.ofCall_of_interval h
    rwa [List.append_nil] at hcall

/-- What happens in one turn of a performance. -/
structure Round (σ : Type) where
  leaf : Leaf σ
  /-- The calls that were made for the interval. -/
  pulled : List (Made σ)
  /-- The delay that was asked for, if there was an interval. -/
  delay : Option Binary64
  /-- The calls that were made for the action. -/
  fired : List (Made σ)
  result : Except Error Value

namespace Round

/-- What a round leaves in the journal. -/
def events (round : Round σ) : List (Event σ) :=
  round.pulled.map (fun m => .called m.1 m.2) ++ round.delay.toList.map .waited
    ++ round.fired.map (fun m => .called m.1 m.2)

/-- A round that begins in a world and ends in another one. Without an interval, nothing is waited for and nothing is
fired. -/
inductive Goes (pace : Binary64 → Binary64) (action : Bound.Call σ) : Round σ → World σ → World σ → Prop
  | broken {leaf : Leaf σ} {pulled : List (Made σ)} {e : Error} {w w' : World σ} :
    leaf.pull w = (.error e, w') → w'.journal = w.journalWith pulled → pulled.map (·.1) <+: leaf.callees →
    Goes pace action ⟨leaf, pulled, none, [], .error e⟩ w w'
  | fired {leaf : Leaf σ} {pulled fired : List (Made σ)} {seconds : Binary64} {result : Except Error Value}
    {w v w' : World σ} :
    leaf.pull w = (.ok seconds, v) → v.journal = w.journalWith pulled → pulled.map (·.1) = leaf.callees →
    action.invoke (v.wait (pace seconds)) = (result, w') →
    w'.journal = (v.wait (pace seconds)).journalWith fired → fired.map (·.1) <+: action.callees →
    (∀ value, result = .ok value → fired.map (·.1) = action.callees) →
    Goes pace action ⟨leaf, pulled, some (pace seconds), fired, result⟩ w w'

variable {pace : Binary64 → Binary64} {action : Bound.Call σ}

theorem Goes.journal {round : Round σ} {w w' : World σ} (h : round.Goes pace action w w') :
    w'.journal = w.journal ++ round.events.toArray := by
  cases h with
  | broken _ hpulled _ =>
    rw [hpulled]
    simp [events, World.journalWith]
  | @fired leaf pulled fired seconds result w v w' _ hpulled _ _ hfired _ _ =>
    have hwait : (v.wait (pace seconds)).journal = v.journal ++ #[.waited (pace seconds)] := rfl
    rw [hfired, World.journalWith, hwait, hpulled, World.journalWith]
    simp [events]

end Round

/-- Rounds that follow one another, one for each of the first leaves. A further round comes only after a good one. -/
inductive Rounds (pace : Binary64 → Binary64) (action : Bound.Call σ) :
    Seq (Leaf σ) → World σ → List (Round σ) → World σ → Prop
  | none {leaves : Seq (Leaf σ)} {w : World σ} : Rounds pace action leaves w [] w
  | last {round : Round σ} {leaves : Seq (Leaf σ)} {e : Error} {w w' : World σ} :
    round.Goes pace action w w' → round.result = .error e →
    Rounds pace action (cons round.leaf leaves) w [round] w'
  | more {round : Round σ} {rounds : List (Round σ)} {leaves : Seq (Leaf σ)} {value : Value} {w v w' : World σ} :
    round.Goes pace action w v → round.result = .ok value → Rounds pace action leaves v rounds w' →
    Rounds pace action (cons round.leaf leaves) w (round :: rounds) w'

namespace Rounds

variable {pace : Binary64 → Binary64} {action : Bound.Call σ}

/-- The journal grows by what the rounds leave in it, one after the other. -/
theorem journal {leaves : Seq (Leaf σ)} {w w' : World σ} {rounds : List (Round σ)}
    (h : Rounds pace action leaves w rounds w') :
    w'.journal = w.journal ++ (rounds.flatMap Round.events).toArray := by
  induction h with
  | none => simp
  | last hgoes _ => simp [hgoes.journal]
  | more hgoes _ _ ih => simp [ih, hgoes.journal]

/-- The round at a place is one for the leaf at that place; it begins in the world that the rounds before it left,
which all were good. -/
theorem getElem? {leaves : Seq (Leaf σ)} {w w' : World σ} {rounds : List (Round σ)}
    (h : Rounds pace action leaves w rounds w') {k : Nat} {round : Round σ} (hk : rounds[k]? = some round) :
    leaves.get? k = some round.leaf ∧ (∀ earlier ∈ rounds.take k, ∃ value, earlier.result = .ok value) ∧
      ∃ v v', Rounds pace action leaves w (rounds.take k) v ∧ round.Goes pace action v v' := by
  induction h generalizing k with
  | none => simp at hk
  | @last first leaves e w w' hgoes hresult =>
    cases k with
    | zero =>
      cases hk
      refine ⟨Stream'.Seq.get?_cons_zero _ _, ?_, w, w', .none, hgoes⟩
      intro earlier hearlier
      simp at hearlier
    | succ k => simp at hk
  | @more first rounds leaves value w v w' hgoes hresult _ ih =>
    cases k with
    | zero =>
      cases hk
      refine ⟨Stream'.Seq.get?_cons_zero _ _, ?_, w, v, .none, hgoes⟩
      intro earlier hearlier
      simp at hearlier
    | succ k =>
      obtain ⟨hleaf, hgood, v', v'', hbefore, hround⟩ := ih (k := k) hk
      refine ⟨?_, ?_, v', v'', .more hgoes hresult hbefore, hround⟩
      · rw [Stream'.Seq.get?_cons_succ]
        exact hleaf
      · intro earlier hearlier
        rw [List.take_succ_cons] at hearlier
        rcases List.mem_cons.1 hearlier with rfl | hearlier
        · exact ⟨value, hresult⟩
        · exact hgood earlier hearlier

end Rounds

/-! ## Turns -/

namespace Performance

theorem turn_of_ended {p : Performance σ} (h : p.ended = true) (w : World σ) : p.turn w = ((none, p), w) := by
  rw [turn, state_bind_apply, pull_of_ended h]
  rfl

theorem take_succ (p : Performance σ) (count : Nat) (w : World σ) :
    p.take (count + 1) w = match p.turn w with
      | ((none, p'), w') => (([], p'), w')
      | ((some result, p'), w') =>
        ((result :: (p'.take count w').1.1, (p'.take count w').1.2), (p'.take count w').2) := by
  rw [take, state_bind_apply]
  rcases p.turn w with ⟨⟨_ | result, p'⟩, w'⟩ <;> rfl

/-- Nothing happens in a performance that is over. -/
theorem take_of_ended {p : Performance σ} (h : p.ended = true) (count : Nat) (w : World σ) :
    p.take count w = (([], p), w) := by
  cases count with
  | zero => rfl
  | succ count => rw [take_succ, turn_of_ended h]

section Turn

variable {p : Performance σ} {c : Cursor σ} {w w' : World σ}

theorem turn_of_end (h : p.ended = false) (hnext : p.pairs.cursor.next w = ((.ok none, c), w')) :
    p.turn w = ((none, { p with pairs := { p.pairs with cursor := c }, ended := true }), w') := by
  rw [turn, state_bind_apply, pull_of_end h hnext]
  rfl

theorem turn_of_error {e : Error} (h : p.ended = false) (hnext : p.pairs.cursor.next w = ((.error e, c), w')) :
    p.turn w = ((some (.error e), { p with pairs := { p.pairs with cursor := c }, ended := true }), w') := by
  rw [turn, state_bind_apply, pull_of_error h hnext]
  rfl

/-- With an interval, a turn asks for the delay and then calls the action. -/
theorem turn_of_interval {seconds : Binary64} (h : p.ended = false)
    (hnext : p.pairs.cursor.next w = ((.ok (some seconds), c), w')) :
    p.turn w = match p.pairs.action.invoke (w'.wait (p.pace seconds)) with
      | (.ok value, v) => ((some (.ok value), { p with pairs := { p.pairs with cursor := c } }), v)
      | (.error e, v) => ((some (.error e), { p with pairs := { p.pairs with cursor := c }, ended := true }), v) := by
  rw [turn, state_bind_apply, pull_of_interval h hnext]
  dsimp only [state_bind_apply]
  rcases hinvoke : p.pairs.action.invoke (w'.wait (p.pace seconds)) with ⟨e | value, v⟩
  · have hfire := fire_of_error (p := { p with pairs := { p.pairs with cursor := c } }) hinvoke
    rw [hfire]
    rfl
  · have hfire := fire_of_ok (p := { p with pairs := { p.pairs with cursor := c } }) hinvoke
    rw [hfire]
    rfl

end Turn

/-- A performance of `s` that is not over and has the leaves `rest` still to go through. -/
structure Stands (s : Bound.Statement σ Bound.Passes) (pace : Binary64 → Binary64) (rest : Seq (Leaf σ))
    (p : Performance σ) : Prop where
  underway : p.ended = false
  pace_eq : p.pace = pace
  action : p.pairs.action = s.action
  cursor : p.pairs.cursor.Stands s.schedule rest

variable {s : Bound.Statement σ Bound.Passes} {pace : Binary64 → Binary64} {rest : Seq (Leaf σ)}
  {leaf : Leaf σ} {p : Performance σ}

theorem stands_start (h : s.schedule.Solid) : Stands s pace s.schedule.leaves (start s pace) :=
  ⟨rfl, rfl, rfl, Cursor.stands_start h⟩

/-- With no leaf left, a turn finds that out, and nothing happens. -/
theorem Stands.turn_nil (h : Stands s pace nil p) (w : World σ) :
    ∃ p', p.turn w = ((none, p'), w) ∧ p'.ended = true := by
  obtain ⟨c, hnext, _⟩ := h.cursor.next_nil w
  exact ⟨_, turn_of_end h.underway hnext, rfl⟩

/-- With a leaf in front, a turn is a round for it. Unless it fails, the performance goes on with the other leaves. -/
theorem Stands.turn_cons (h : Stands s pace (cons leaf rest) p) (w : World σ) :
    ∃ (round : Round σ) (p' : Performance σ) (w' : World σ), round.leaf = leaf ∧ round.Goes pace s.action w w' ∧
      p.turn w = ((some round.result, p'), w') ∧
      ((∃ value, round.result = .ok value) ∧ Stands s pace rest p' ∨
        (∃ e, round.result = .error e) ∧ p'.ended = true) := by
  obtain ⟨pulled, hpulled, hbefore, hall, _⟩ := leaf.makes_pull w
  rcases h.cursor.next_cons w with ⟨seconds, v, c, hpull, hnext, hstands⟩ | ⟨e, v, c, hpull, hnext, _⟩
  · rw [hpull] at hpulled hall
    obtain ⟨fired, hfired, hsome, hevery, _⟩ := s.action.makes_invoke (v.wait (pace seconds))
    have hturn := turn_of_interval h.underway hnext
    rw [h.action, h.pace_eq] at hturn
    rcases hinvoke : s.action.invoke (v.wait (pace seconds)) with ⟨e | value, w'⟩
    · rw [hinvoke] at hfired hevery hturn
      exact ⟨⟨leaf, pulled, some (pace seconds), fired, .error e⟩, _, w', rfl,
        .fired hpull hpulled (hall seconds rfl) hinvoke hfired hsome hevery, hturn, .inr ⟨⟨e, rfl⟩, rfl⟩⟩
    · rw [hinvoke] at hfired hevery hturn
      exact ⟨⟨leaf, pulled, some (pace seconds), fired, .ok value⟩, _, w', rfl,
        .fired hpull hpulled (hall seconds rfl) hinvoke hfired hsome hevery, hturn,
        .inl ⟨⟨value, rfl⟩, h.underway, rfl, h.action, hstands⟩⟩
  · rw [hpull] at hpulled
    exact ⟨⟨leaf, pulled, none, [], .error e⟩, _, v, rfl, .broken hpull hpulled hbefore,
      turn_of_error h.underway hnext, .inr ⟨⟨e, rfl⟩, rfl⟩⟩

/-! ## Whole performances -/

/-- Nothing happens in a performance that has no leaf left. -/
theorem Stands.take_nil (h : Stands s pace nil p) (count : Nat) (w : World σ) :
    ∃ p', p.take count w = (([], p'), w) := by
  cases count with
  | zero => exact ⟨p, rfl⟩
  | succ count =>
    obtain ⟨p', hturn, _⟩ := h.turn_nil w
    refine ⟨p', ?_⟩
    rw [Performance.take_succ, hturn]

/-- What is taken from a performance is rounds for the leaves that are left. There are as many as asked for, unless one
fails, which ends the performance, or the leaves are used up, which is found out by the turn after the last one. -/
theorem Stands.take (h : Stands s pace rest p) (count : Nat) (w : World σ) :
    ∃ (rounds : List (Round σ)) (p' : Performance σ) (w' : World σ),
      p.take count w = ((rounds.map Round.result, p'), w') ∧ Rounds pace s.action rest w rounds w' ∧
      rounds.length ≤ count ∧
      ((∃ round ∈ rounds, ∃ e, round.result = .error e) ∧ p'.ended = true ∨
        rest.get? rounds.length = none ∧ p'.ended = true ∨
        rounds.length = count ∧ (∀ round ∈ rounds, ∃ value, round.result = .ok value) ∧
          Stands s pace (rest.drop count) p') := by
  induction count generalizing p rest w with
  | zero =>
    refine ⟨[], p, w, rfl, .none, Nat.le_refl _, .inr (.inr ⟨rfl, ?_, h⟩)⟩
    intro round hround
    simp at hround
  | succ count ih =>
    cases rest with
    | nil =>
      obtain ⟨p', hturn, hended⟩ := h.turn_nil w
      refine ⟨[], p', w, ?_, .none, Nat.zero_le _, .inr (.inl ⟨Stream'.Seq.get?_nil 0, hended⟩)⟩
      rw [Performance.take_succ, hturn]
      rfl
    | cons leaf rest =>
      obtain ⟨round, p', v, rfl, hgoes, hturn, ⟨⟨value, hvalue⟩, hstands⟩ | ⟨⟨e, herror⟩, hended⟩⟩ := h.turn_cons w
      · obtain ⟨rounds, p'', w', htake, hrounds, hlength, hend⟩ := ih hstands v
        refine ⟨round :: rounds, p'', w', ?_, .more hgoes hvalue hrounds, Nat.succ_le_succ hlength, ?_⟩
        · rw [Performance.take_succ, hturn]
          dsimp only
          rw [htake]
          rfl
        · rcases hend with ⟨⟨failed, hmem, hfailed⟩, hended⟩ | ⟨hover, hended⟩ | ⟨hcount, hgood, hstands'⟩
          · exact .inl ⟨⟨failed, List.mem_cons_of_mem round hmem, hfailed⟩, hended⟩
          · refine .inr (.inl ⟨?_, hended⟩)
            rw [List.length_cons, Stream'.Seq.get?_cons_succ]
            exact hover
          · refine .inr (.inr ⟨congrArg Nat.succ hcount, List.forall_mem_cons.2 ⟨⟨value, hvalue⟩, hgood⟩, ?_⟩)
            rw [Stream'.Seq.drop_succ_cons]
            exact hstands'
      · refine ⟨[round], p', v, ?_, .last hgoes herror, Nat.succ_le_succ (Nat.zero_le count), ?_⟩
        · rw [Performance.take_succ, hturn]
          dsimp only
          rw [take_of_ended hended]
          rfl
        · exact .inl ⟨⟨round, List.mem_singleton_self round, e, herror⟩, hended⟩

end Performance

/-- Whatever number of items is taken from the performance of a statement of a bound program, what happens is a row of
rounds. The round at each place is one for the leaf at that place: the calls for its interval, then the interval itself
as the delay, then the calls of the action, the result of which is the item. It begins in the world that the rounds
before it left, all of which were good; if there is no interval, its error is the item, without delay and firing. There
are fewer items than asked for only after an error, or after the last leaf, and from then on nothing happens. -/
theorem take_eq_rounds {actions functions : Registry σ} {program : List Statement} {w₀ w₁ : World σ}
    {bound : List (Bound.Statement σ Bound.Passes)}
    (hbind : Statements.bind actions functions program w₀ = (.ok bound, w₁))
    {s : Bound.Statement σ Bound.Passes} (hs : s ∈ bound) (count : Nat) (w : World σ) :
    ∃ (rounds : List (Round σ)) (p : Performance σ) (w' : World σ),
      (Performance.start s id).take count w = ((rounds.map Round.result, p), w') ∧
      w'.journal = w.journal ++ (rounds.flatMap Round.events).toArray ∧
      Rounds id s.action s.schedule.leaves w rounds w' ∧
      (∀ k round, rounds[k]? = some round → s.schedule.leaves.get? k = some round.leaf ∧
        (∀ earlier ∈ rounds.take k, ∃ value, earlier.result = .ok value) ∧
        ∃ v v', Rounds id s.action s.schedule.leaves w (rounds.take k) v ∧ round.Goes id s.action v v') ∧
      rounds.length ≤ count ∧
      (rounds.length < count →
        (∃ round ∈ rounds, ∃ e, round.result = .error e) ∨ s.schedule.leaves.get? rounds.length = none) ∧
      ((∃ round ∈ rounds, ∃ e, round.result = .error e) ∨ s.schedule.leaves.get? rounds.length = none →
        ∀ more v, ∃ p', p.take more v = (([], p'), v)) := by
  obtain ⟨source, _, hbinds⟩ := exists_binds_of_bind hbind hs
  have hstart : Performance.Stands s id s.schedule.leaves (Performance.start s id) :=
    Performance.stands_start hbinds.solid
  obtain ⟨rounds, p, w', htake, hrounds, hlength, hend⟩ := hstart.take count w
  refine ⟨rounds, p, w', htake, hrounds.journal, hrounds, fun k round => hrounds.getElem?, hlength, ?_, ?_⟩
  · intro hfewer
    rcases hend with ⟨hfailed, _⟩ | ⟨hover, _⟩ | ⟨hcount, _, _⟩
    · exact .inl hfailed
    · exact .inr hover
    · omega
  · intro hover more v
    rcases hend with ⟨_, hended⟩ | ⟨_, hended⟩ | ⟨hcount, hgood, hstands⟩
    · exact ⟨p, Performance.take_of_ended hended more v⟩
    · exact ⟨p, Performance.take_of_ended hended more v⟩
    · rcases hover with ⟨round, hround, e, herror⟩ | hover
      · obtain ⟨value, hvalue⟩ := hgood round hround
        rw [hvalue] at herror
        cases herror
      · have hnil : s.schedule.leaves.drop count = nil := by
          rw [← Stream'.Seq.get?_zero_eq_none, Stream'.Seq.drop_get?, Nat.add_zero, ← hcount]
          exact hover
        rw [hnil] at hstands
        exact hstands.take_nil more v

theorem take_eq_rounds_tick :
    Statements.bind Sample.actions Sample.functions [Sample.ticking (.times 2)] (.fresh 0)
        = (.ok [Sample.tickingTwice], .fresh 0) ∧
      Sample.tickingTwice ∈ [Sample.tickingTwice] ∧
      ∃ (rounds : List (Round Nat)) (w' : World Nat),
        Rounds id Sample.tickingTwice.action Sample.tickingTwice.schedule.leaves (.fresh 5) rounds w' ∧
        w'.journal = #[] ++ (rounds.flatMap Round.events).toArray ∧
        rounds.length = 3 ∧ w'.state = 6 ∧ w'.delays = [.ofInt 1, .ofInt 5, .ofInt 1] := by
  have hbind : Statements.bind Sample.actions Sample.functions [Sample.ticking (.times 2)] (.fresh 0)
      = (.ok [Sample.tickingTwice], .fresh 0) := rfl
  have hs : Sample.tickingTwice ∈ [Sample.tickingTwice] := List.mem_singleton_self _
  have hrun : ((Performance.start Sample.tickingTwice id).take 3 (.fresh 5)).1.1.length = 3 ∧
      ((Performance.start Sample.tickingTwice id).take 3 (.fresh 5)).2.state = 6 ∧
      ((Performance.start Sample.tickingTwice id).take 3 (.fresh 5)).2.delays = [.ofInt 1, .ofInt 5, .ofInt 1] := by
    decide +kernel
  obtain ⟨rounds, p, w', htake, hjournal, hrounds, _⟩ := take_eq_rounds hbind hs 3 (.fresh 5)
  rw [htake, List.length_map] at hrun
  exact ⟨hbind, hs, rounds, w', hrounds, hjournal, hrun⟩

end Cadence
