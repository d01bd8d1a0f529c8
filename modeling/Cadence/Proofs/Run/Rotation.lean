import Cadence.Proofs.Run.Rounds

/-!
# Taking turns

Several statements take turns in a cycle. A `Slot` is the place of a turn: all first turns come before all second
ones, and so on, and in each cycle the statements come in order (`Slot.Before`). `RoundRobin` says which turns there
are: they are in the order of their slots, each is a whole round of its statement, and a slot is passed over only if its
statement has left, because a round of it failed or its leaves are used up. A queue of slots, of which the first one is
taken and its successor put at the end, comes to just that (`Rotation.roundRobin`). What carries the proof is that the
slots of the queue always stand in order and lie within one cycle (`Rotating`).
-/

namespace Cadence

variable {σ : Type}

/-! ## Slots -/

/-- The place of a turn: how many rounds its statement made before, and which of the statements it is. -/
structure Slot where
  count : Nat
  index : Nat

namespace Slot

/-- The next turn of the same statement. -/
def next (a : Slot) : Slot :=
  ⟨a.count + 1, a.index⟩

/-- Cycle by cycle, and in the order of the statements within a cycle. -/
def Before (a b : Slot) : Prop :=
  a.count < b.count ∨ a.count = b.count ∧ a.index < b.index

theorem Before.trans {a b c : Slot} (hab : a.Before b) (hbc : b.Before c) : a.Before c := by
  unfold Before at *
  omega

theorem not_before_of_count_le {a b : Slot} (hindex : a.index = b.index) (hcount : a.count ≤ b.count) :
    ¬ b.Before a := by
  unfold Before
  omega

theorem before_of_count_le {a b c : Slot} (h : a.Before b) (hindex : b.index = c.index) (hcount : b.count ≤ c.count) :
    a.Before c := by
  unfold Before at *
  omega

end Slot

/-- The slots of the first cycle of `n` statements. -/
def firstCycle (n : Nat) : List Slot :=
  (List.range n).map (Slot.mk 0)

/-- Slots in order, none of which comes after the successor of another. -/
def Rotating (slots : List Slot) : Prop :=
  slots.Pairwise fun a b => a.Before b ∧ b.Before a.next

theorem rotating_firstCycle (n : Nat) : Rotating (firstCycle n) := by
  rw [Rotating, firstCycle, List.pairwise_map]
  refine List.pairwise_lt_range.imp fun {i j} hij => ?_
  exact ⟨.inr ⟨rfl, hij⟩, .inl Nat.zero_lt_one⟩

/-- Taking the first slot and putting its successor at the end keeps the slots in order. -/
theorem Rotating.turn {a : Slot} {slots : List Slot} (h : Rotating (a :: slots)) : Rotating (slots ++ [a.next]) := by
  obtain ⟨hfirst, hslots⟩ := List.pairwise_cons.1 h
  refine List.pairwise_append.2 ⟨hslots, List.pairwise_singleton _ _, ?_⟩
  intro b hb c hc
  rw [List.mem_singleton.1 hc]
  obtain ⟨hab, hba⟩ := hfirst b hb
  refine ⟨hba, ?_⟩
  simp only [Slot.Before, Slot.next] at hab ⊢
  omega

/-- No statement has two slots in the queue. -/
theorem Rotating.index_ne {a b : Slot} {slots : List Slot} (h : Rotating (a :: slots)) (hb : b ∈ slots) :
    b.index ≠ a.index := by
  obtain ⟨hab, hba⟩ := List.rel_of_pairwise_cons h hb
  simp only [Slot.Before, Slot.next] at hab hba
  omega

/-! ## Turns -/

/-- A round of one of several statements. -/
structure Turn (σ : Type) where
  slot : Slot
  round : Round σ

/-- The numbers that the turns of one statement have among its own. -/
def countsOf (i : Nat) (turns : List (Turn σ)) : List Nat :=
  (turns.filter fun t => t.slot.index == i).map fun t => t.slot.count

theorem countsOf_cons_self {i : Nat} {t : Turn σ} (h : t.slot.index = i) (turns : List (Turn σ)) :
    countsOf i (t :: turns) = t.slot.count :: countsOf i turns := by
  simp [countsOf, h]

theorem countsOf_cons_of_ne {i : Nat} {t : Turn σ} (h : t.slot.index ≠ i) (turns : List (Turn σ)) :
    countsOf i (t :: turns) = countsOf i turns := by
  simp [countsOf, h]

section Statements

variable (statements : List (Bound.Statement σ Bound.Passes))

/-- A turn that begins in a world and ends in another one. It is a round for the leaf that the slot says. -/
def Turn.Goes (t : Turn σ) (w w' : World σ) : Prop :=
  ∃ s, statements[t.slot.index]? = some s ∧ s.schedule.leaves.get? t.slot.count = some t.round.leaf ∧
    t.round.Goes id s.action w w'

/-- Turns that follow one another, each in the world that the one before it left. -/
inductive Turns : World σ → List (Turn σ) → World σ → Prop
  | none {w : World σ} : Turns w [] w
  | more {t : Turn σ} {turns : List (Turn σ)} {w v w' : World σ} :
    t.Goes statements w v → Turns v turns w' → Turns w (t :: turns) w'

/-- After some turns, the statement of a slot makes no turn there: one before it failed, or no leaf is left for it. -/
inductive Slot.Left (turns : List (Turn σ)) (a : Slot) : Prop
  | failed {t : Turn σ} {e : Error} : t ∈ turns → t.slot.index = a.index → t.slot.count < a.count →
    t.round.result = .error e → Left turns a
  | exhausted {s : Bound.Statement σ Bound.Passes} : statements[a.index]? = some s →
    s.schedule.leaves.get? a.count = none → Left turns a

/-- The turn of a slot was made, or its statement has left. -/
def Slot.Settled (turns : List (Turn σ)) (a : Slot) : Prop :=
  (∃ t ∈ turns, t.slot = a) ∨ a.Left statements turns

/-- Turns of several statements in a cycle, from one world to another. -/
structure RoundRobin (w : World σ) (turns : List (Turn σ)) (w' : World σ) : Prop where
  goes : Turns statements w turns w'
  ordered : turns.Pairwise fun t t' => t.slot.Before t'.slot
  /-- A statement makes its rounds one after the other, from the first leaf on. -/
  own : ∀ i, ∃ n, countsOf i turns = List.range n
  /-- A statement makes no turn after one that failed. -/
  stopped : turns.Pairwise fun t t' => t'.slot.index = t.slot.index → ∃ value, t.round.result = .ok value
  /-- No slot is passed over. -/
  settled : ∀ earlier t later, turns = earlier ++ t :: later →
    ∀ a : Slot, a.index < statements.length → a.Before t.slot → a.Settled statements earlier

/-! ## Queues of slots -/

/-- The turns that a queue of slots comes to, with the slots that are in the queue afterwards. -/
inductive Rotation : List Slot → World σ → List (Turn σ) → List Slot → World σ → Prop
  | stop {slots : List Slot} {w : World σ} : Rotation slots w [] slots w
  | leave {a : Slot} {s : Bound.Statement σ Bound.Passes} {slots last : List Slot} {turns : List (Turn σ)}
    {w w' : World σ} : statements[a.index]? = some s → s.schedule.leaves.get? a.count = none →
    Rotation slots w turns last w' → Rotation (a :: slots) w turns last w'
  | fail {t : Turn σ} {e : Error} {slots last : List Slot} {turns : List (Turn σ)} {w v w' : World σ} :
    t.Goes statements w v → t.round.result = .error e →
    Rotation slots v turns last w' → Rotation (t.slot :: slots) w (t :: turns) last w'
  | more {t : Turn σ} {value : Value} {slots last : List Slot} {turns : List (Turn σ)} {w v w' : World σ} :
    t.Goes statements w v → t.round.result = .ok value →
    Rotation (slots ++ [t.slot.next]) v turns last w' → Rotation (t.slot :: slots) w (t :: turns) last w'

end Statements

variable {statements : List (Bound.Statement σ Bound.Passes)} {slots last : List Slot} {turns : List (Turn σ)}
  {w w' : World σ}

theorem Turns.journal (h : Turns statements w turns w') :
    w'.journal = w.journal ++ (turns.flatMap (·.round.events)).toArray := by
  induction h with
  | none => simp
  | @more t turns w v w' hgoes _ ih =>
    obtain ⟨s, _, _, hround⟩ := hgoes
    simp [ih, hround.journal]

theorem Slot.Left.of_subset {a : Slot} {more : List (Turn σ)} (h : a.Left statements turns) (hsub : turns ⊆ more) :
    a.Left statements more := by
  cases h with
  | failed ht hindex hcount herror => exact .failed (hsub ht) hindex hcount herror
  | exhausted hs hleaf => exact .exhausted hs hleaf

theorem Slot.Settled.of_subset {a : Slot} {more : List (Turn σ)} (h : a.Settled statements turns)
    (hsub : turns ⊆ more) : a.Settled statements more := by
  rcases h with ⟨t, ht, hslot⟩ | hleft
  · exact .inl ⟨t, hsub ht, hslot⟩
  · exact .inr (hleft.of_subset hsub)

theorem Slot.left_of_exhausted {a b : Slot} {s : Bound.Statement σ Bound.Passes}
    (hs : statements[a.index]? = some s) (hleaf : s.schedule.leaves.get? a.count = none) (hindex : a.index = b.index)
    (hcount : a.count ≤ b.count) : b.Left statements turns := by
  refine .exhausted (hindex ▸ hs) ?_
  exact Stream'.Seq.le_stable _ hcount hleaf

namespace Rotation

theorem trans {middle : List Slot} {more : List (Turn σ)} {v : World σ}
    (h : Rotation statements slots w turns middle v) (h' : Rotation statements middle v more last w') :
    Rotation statements slots w (turns ++ more) last w' := by
  induction h with
  | stop => exact h'
  | leave hs hleaf _ ih => exact .leave hs hleaf (ih h')
  | fail hgoes herror _ ih => exact .fail hgoes herror (ih h')
  | more hgoes hvalue _ ih => exact .more hgoes hvalue (ih h')

theorem goes (h : Rotation statements slots w turns last w') : Turns statements w turns w' := by
  induction h with
  | stop => exact .none
  | leave _ _ _ ih => exact ih
  | fail hgoes _ _ ih => exact .more hgoes ih
  | more hgoes _ _ ih => exact .more hgoes ih

theorem rotating (h : Rotation statements slots w turns last w') (hslots : Rotating slots) : Rotating last := by
  induction h with
  | stop => exact hslots
  | leave _ _ _ ih => exact ih (List.Pairwise.of_cons hslots)
  | fail _ _ _ ih => exact ih (List.Pairwise.of_cons hslots)
  | more _ _ _ ih => exact ih hslots.turn

/-- Every turn comes from a slot in the queue, or a later one of the same statement. -/
theorem exists_slot (h : Rotation statements slots w turns last w') {t : Turn σ} (ht : t ∈ turns) :
    ∃ a ∈ slots, a.index = t.slot.index ∧ a.count ≤ t.slot.count := by
  induction h with
  | stop => cases ht
  | leave _ _ _ ih =>
    obtain ⟨a, ha, hindex, hcount⟩ := ih ht
    exact ⟨a, List.mem_cons_of_mem _ ha, hindex, hcount⟩
  | fail _ _ _ ih =>
    rcases List.mem_cons.1 ht with rfl | ht
    · exact ⟨_, List.mem_cons_self, rfl, Nat.le_refl _⟩
    · obtain ⟨a, ha, hindex, hcount⟩ := ih ht
      exact ⟨a, List.mem_cons_of_mem _ ha, hindex, hcount⟩
  | @more first value slots last turns w v w' _ _ _ ih =>
    rcases List.mem_cons.1 ht with rfl | ht
    · exact ⟨_, List.mem_cons_self, rfl, Nat.le_refl _⟩
    · obtain ⟨a, ha, hindex, hcount⟩ := ih ht
      rcases List.mem_append.1 ha with ha | ha
      · exact ⟨a, List.mem_cons_of_mem _ ha, hindex, hcount⟩
      · -- the slot is the successor of the first one
        rw [List.mem_singleton.1 ha] at hindex hcount
        exact ⟨first.slot, List.mem_cons_self, hindex, Nat.le_of_succ_le hcount⟩

theorem before (h : Rotation statements slots w turns last w') {a : Slot} (ha : ∀ b ∈ slots, a.Before b) {t : Turn σ}
    (ht : t ∈ turns) : a.Before t.slot := by
  obtain ⟨b, hb, hindex, hcount⟩ := h.exists_slot ht
  exact Slot.before_of_count_le (ha b hb) hindex hcount

theorem ordered (h : Rotation statements slots w turns last w') (hslots : Rotating slots) :
    turns.Pairwise fun t t' => t.slot.Before t'.slot := by
  induction h with
  | stop => exact .nil
  | leave _ _ _ ih => exact ih (List.Pairwise.of_cons hslots)
  | fail _ _ hrest ih =>
    refine List.pairwise_cons.2 ⟨fun t' ht' => hrest.before ?_ ht', ih (List.Pairwise.of_cons hslots)⟩
    intro b hb
    exact (List.rel_of_pairwise_cons hslots hb).1
  | @more t value slots last turns w v w' _ _ hrest ih =>
    refine List.pairwise_cons.2 ⟨fun t' ht' => hrest.before ?_ ht', ih hslots.turn⟩
    intro b hb
    rcases List.mem_append.1 hb with hb | hb
    · exact (List.rel_of_pairwise_cons hslots hb).1
    · rw [List.mem_singleton.1 hb]
      exact .inl (Nat.lt_succ_self _)

theorem stopped (h : Rotation statements slots w turns last w') (hslots : Rotating slots) :
    turns.Pairwise fun t t' => t'.slot.index = t.slot.index → ∃ value, t.round.result = .ok value := by
  induction h with
  | stop => exact .nil
  | leave _ _ _ ih => exact ih (List.Pairwise.of_cons hslots)
  | fail _ _ hrest ih =>
    refine List.pairwise_cons.2 ⟨fun t' ht' hindex => ?_, ih (List.Pairwise.of_cons hslots)⟩
    -- a later turn comes from another slot, and that is one of another statement
    obtain ⟨a, ha, hindex', _⟩ := hrest.exists_slot ht'
    exact absurd (hindex'.trans hindex) (hslots.index_ne ha)
  | more _ hvalue _ ih => exact List.pairwise_cons.2 ⟨fun _ _ _ => ⟨_, hvalue⟩, ih hslots.turn⟩

theorem countsOf_eq_nil (h : Rotation statements slots w turns last w') {i : Nat} (hi : ∀ a ∈ slots, a.index ≠ i) :
    countsOf i turns = [] := by
  refine List.map_eq_nil_iff.2 (List.filter_eq_nil_iff.2 fun t ht => ?_)
  obtain ⟨a, ha, hindex, _⟩ := h.exists_slot ht
  have hne : t.slot.index ≠ i := hindex ▸ hi a ha
  simpa using hne

/-- The turns of a statement in the queue are consecutive. -/
theorem own (h : Rotation statements slots w turns last w') (hslots : Rotating slots) {a : Slot} (ha : a ∈ slots) :
    ∃ n, countsOf a.index turns = List.range' a.count n := by
  induction h generalizing a with
  | stop => exact ⟨0, rfl⟩
  | leave _ _ hrest ih =>
    rcases List.mem_cons.1 ha with rfl | ha
    · exact ⟨0, hrest.countsOf_eq_nil fun b hb => hslots.index_ne hb⟩
    · exact ih (List.Pairwise.of_cons hslots) ha
  | fail _ _ hrest ih =>
    rcases List.mem_cons.1 ha with rfl | ha
    · refine ⟨1, ?_⟩
      rw [countsOf_cons_self rfl, hrest.countsOf_eq_nil fun b hb => hslots.index_ne hb]
      rfl
    · rw [countsOf_cons_of_ne (hslots.index_ne ha).symm]
      exact ih (List.Pairwise.of_cons hslots) ha
  | @more t value slots last turns w v w' _ _ _ ih =>
    rcases List.mem_cons.1 ha with rfl | ha
    · obtain ⟨n, hn⟩ := ih hslots.turn (List.mem_append_right _ (List.mem_singleton_self t.slot.next))
      refine ⟨n + 1, ?_⟩
      rw [countsOf_cons_self rfl, List.range'_succ]
      exact congrArg _ hn
    · rw [countsOf_cons_of_ne (hslots.index_ne ha).symm]
      exact ih hslots.turn (List.mem_append_left _ ha)

/-- A slot of a statement in the queue is settled, or comes after a slot of that statement that is still in it. -/
theorem settled_or_pending (h : Rotation statements slots w turns last w') {a b : Slot} (ha : a ∈ slots)
    (hindex : a.index = b.index) (hcount : a.count ≤ b.count) :
    b.Settled statements turns ∨ ∃ c ∈ last, c.index = b.index ∧ c.count ≤ b.count := by
  induction h generalizing a with
  | stop => exact .inr ⟨a, ha, hindex, hcount⟩
  | leave hs hleaf _ ih =>
    rcases List.mem_cons.1 ha with rfl | ha
    · exact .inl (.inr (Slot.left_of_exhausted hs hleaf hindex hcount))
    · exact ih ha hindex hcount
  | fail _ herror _ ih =>
    rcases List.mem_cons.1 ha with rfl | ha
    · -- the turn was made at this slot, and at a later slot of the statement it has failed before
      left
      rcases Nat.eq_or_lt_of_le hcount with heq | hlt
      · exact .inl ⟨_, List.mem_cons_self, congr (congrArg Slot.mk heq) hindex⟩
      · exact .inr (.failed List.mem_cons_self hindex hlt herror)
    · exact (ih ha hindex hcount).imp_left fun hb => hb.of_subset (List.subset_cons_self _ _)
  | @more t value slots last turns w v w' _ _ _ ih =>
    have hrest : ∀ {c : Slot}, c ∈ slots ++ [t.slot.next] → c.index = b.index → c.count ≤ b.count →
        b.Settled statements (t :: turns) ∨ ∃ c ∈ last, c.index = b.index ∧ c.count ≤ b.count := by
      intro c hc hindex hcount
      exact (ih hc hindex hcount).imp_left fun hb => hb.of_subset (List.subset_cons_self _ _)
    rcases List.mem_cons.1 ha with rfl | ha
    · -- a later slot of the statement is at or after the successor, which is in the queue now
      rcases Nat.eq_or_lt_of_le hcount with heq | hlt
      · exact .inl (.inl ⟨t, List.mem_cons_self, congr (congrArg Slot.mk heq) hindex⟩)
      · exact hrest (List.mem_append_right _ (List.mem_singleton_self _)) hindex hlt
    · exact hrest (List.mem_append_left _ ha) hindex hcount

/-- When a turn is made, its slot is the first one in the queue. -/
theorem exists_prefix (h : Rotation statements slots w turns last w') {earlier later : List (Turn σ)} {t : Turn σ}
    (hturns : turns = earlier ++ t :: later) :
    ∃ rest v, Rotation statements slots w earlier (t.slot :: rest) v := by
  induction h generalizing earlier with
  | stop => simp at hturns
  | leave hs hleaf _ ih =>
    obtain ⟨rest, v, hrest⟩ := ih hturns
    exact ⟨rest, v, .leave hs hleaf hrest⟩
  | fail hgoes herror _ ih =>
    cases earlier with
    | nil =>
      cases hturns
      exact ⟨_, _, .stop⟩
    | cons first earlier =>
      obtain ⟨rfl, hafter⟩ := List.cons_eq_cons.1 (hturns.trans List.cons_append)
      obtain ⟨rest, v, hrest⟩ := ih hafter
      exact ⟨rest, v, .fail hgoes herror hrest⟩
  | more hgoes hvalue _ ih =>
    cases earlier with
    | nil =>
      cases hturns
      exact ⟨_, _, .stop⟩
    | cons first earlier =>
      obtain ⟨rfl, hafter⟩ := List.cons_eq_cons.1 (hturns.trans List.cons_append)
      obtain ⟨rest, v, hrest⟩ := ih hafter
      exact ⟨rest, v, .more hgoes hvalue hrest⟩

private theorem mem_firstCycle {n : Nat} {a : Slot} (h : a.index < n) : ⟨0, a.index⟩ ∈ firstCycle n :=
  List.mem_map_of_mem (List.mem_range.2 h)

theorem settled_of_nil (h : Rotation statements (firstCycle statements.length) w turns [] w') {a : Slot}
    (ha : a.index < statements.length) : a.Settled statements turns := by
  rcases h.settled_or_pending (b := a) (mem_firstCycle ha) rfl (Nat.zero_le _) with hsettled | ⟨c, hc, _⟩
  · exact hsettled
  · cases hc

/-- A queue of slots that begins with the first cycle comes to turns in a cycle. -/
theorem roundRobin (h : Rotation statements (firstCycle statements.length) w turns last w') :
    RoundRobin statements w turns w' where
  goes := h.goes
  ordered := h.ordered (rotating_firstCycle _)
  own := by
    intro i
    by_cases hi : i < statements.length
    · obtain ⟨n, hn⟩ := h.own (rotating_firstCycle _) (mem_firstCycle (a := ⟨0, i⟩) hi)
      exact ⟨n, hn.trans List.range_eq_range'.symm⟩
    · refine ⟨0, ?_⟩
      have hout : ∀ a ∈ firstCycle statements.length, a.index ≠ i := by
        intro a ha
        obtain ⟨j, hj, rfl⟩ := List.mem_map.1 ha
        have := List.mem_range.1 hj
        show j ≠ i
        omega
      exact h.countsOf_eq_nil hout
  stopped := h.stopped (rotating_firstCycle _)
  settled := by
    intro earlier t later hturns a ha hbefore
    obtain ⟨rest, v, hprefix⟩ := h.exists_prefix hturns
    rcases hprefix.settled_or_pending (b := a) (mem_firstCycle ha) rfl (Nat.zero_le _) with
      hsettled | ⟨c, hc, hindex, hcount⟩
    · exact hsettled
    · -- a slot that is still in the queue does not come before the first one
      have hrotating := hprefix.rotating (rotating_firstCycle _)
      have hca : c.Before t.slot := by
        unfold Slot.Before at hbefore ⊢
        omega
      rcases List.mem_cons.1 hc with rfl | hc
      · exact absurd hca (Slot.not_before_of_count_le rfl (Nat.le_refl _))
      · have htc := (List.rel_of_pairwise_cons hrotating hc).1
        exact absurd (htc.trans hca) (Slot.not_before_of_count_le rfl (Nat.le_refl _))

end Rotation

end Cadence
