import Cadence.Proofs.Run.Counts

/-!
# The life of a cursor

Cursors over intervals and cursors over pairs are pulled in two ways, by `next` and by `next?`; both are a `Source`.
In any row of pulls, in whatever ways and worlds they are made, the two ways give the same up to the first report of the
end or of an error; from then on the source is finished, nothing happens any more, and the end is not reported again
(`Source.LifeCycle`). The key facts: a pull finishes a source exactly if its report closes it
(`Source.Lawful.finished_pull`), and in a row of pulls a source is finished exactly if an earlier report closed it
(`Source.Lawful.finished_before_iff`).
-/

namespace Cadence

variable {σ κ α : Type}

/-! ## Sources -/

/-- Something that is pulled for values, in two ways. -/
structure Source (σ κ α : Type) where
  finished : κ → Bool
  next : κ → StateM (World σ) (Except Error (Option α) × κ)
  next? : κ → StateM (World σ) (Option (Except Error α) × κ)

def Cursor.source : Source σ (Cursor σ) Binary64 :=
  ⟨finished, next, next?⟩

def Pairs.source : Source σ (Pairs σ) (Binary64 × Bound.Call σ) :=
  ⟨(·.cursor.finished), next, next?⟩

/-- A value or an error, and nothing for the end. -/
def offered : Except Error (Option α) → Option (Except Error α)
  | .ok (some a) => some (.ok a)
  | .ok none => none
  | .error e => some (.error e)

/-- A way to pull a source. -/
inductive Way
  | next
  | next?

/-- What a pull reports, in either way. -/
inductive Report (α : Type)
  | next (result : Except Error (Option α))
  | next? (result : Option (Except Error α))

/-- Whether a report is of the end or of an error. -/
def Report.closes : Report α → Bool
  | .next (.ok (some _)) => false
  | .next (.ok none) => true
  | .next (.error _) => true
  | .next? (some (.ok _)) => false
  | .next? (some (.error _)) => true
  | .next? none => true

theorem Report.closes_next? (result : Except Error (Option α)) :
    (Report.next? (offered result)).closes = (Report.next result).closes := by
  rcases result with e | _ | a <;> rfl

/-- A pull that was made, with the source as it was before and after it. -/
structure Pull (κ α : Type) where
  before : κ
  report : Report α
  after : κ

namespace Source

def pull (S : Source σ κ α) (c : κ) : Way → StateM (World σ) (Report α × κ)
  | .next => do
    let (result, c) ← S.next c
    return (.next result, c)
  | .next? => do
    let (result, c) ← S.next? c
    return (.next? result, c)

/-- Pulls that are made one after the other, each in its way and in a world of its own. -/
def pulls (S : Source σ κ α) : List (Way × World σ) → κ → List (Pull κ α)
  | [], _ => []
  | (way, w) :: rest, c =>
    ⟨c, (S.pull c way w).1.1, (S.pull c way w).1.2⟩ :: S.pulls rest (S.pull c way w).1.2

/-- The life of a source, whatever row of pulls is made. -/
structure LifeCycle (S : Source σ κ α) (c : κ) : Prop where
  unfinished : S.finished c = false
  /-- A source is finished from the first report of the end or of an error on. -/
  finished_iff : ∀ ways earlier p later, S.pulls ways c = earlier ++ p :: later →
    (S.finished p.before = true ↔ ∃ q ∈ earlier, q.report.closes = true) ∧
    (S.finished p.after = true ↔ ∃ q ∈ earlier ++ [p], q.report.closes = true)
  /-- Up to then, the two ways give the same and do the same. -/
  same : ∀ ways earlier p later, S.pulls ways c = earlier ++ p :: later →
    (∀ q ∈ earlier, q.report.closes = false) →
      ∀ w, S.next? p.before w = ((offered (S.next p.before w).1.1, (S.next p.before w).1.2), (S.next p.before w).2)
  /-- From then on, nothing happens in a pull. -/
  closed : ∀ ways earlier p later, S.pulls ways c = earlier ++ p :: later →
    (∃ q ∈ earlier, q.report.closes = true) →
      ∀ w, S.next p.before w = ((.error .exhausted, p.before), w) ∧ S.next? p.before w = ((none, p.before), w)
  /-- The end is reported once at most, and not after an error. -/
  once : ∀ ways earlier p later, S.pulls ways c = earlier ++ p :: later → p.report = .next (.ok none) →
    (∀ q ∈ earlier, q.report.closes = false) ∧ ∀ q ∈ later, q.report ≠ .next (.ok none)

/-- What a single pull of a source does. -/
structure Lawful (S : Source σ κ α) : Prop where
  closed : ∀ c, S.finished c = true →
    ∀ w, S.next c w = ((.error .exhausted, c), w) ∧ S.next? c w = ((none, c), w)
  same : ∀ c, S.finished c = false →
    ∀ w, S.next? c w = ((offered (S.next c w).1.1, (S.next c w).1.2), (S.next c w).2)
  finished_next : ∀ c, S.finished c = false →
    ∀ w, S.finished (S.next c w).1.2 = (Report.next (S.next c w).1.1).closes

namespace Lawful

variable {S : Source σ κ α} (hS : S.Lawful) {c : κ}
include hS

theorem closes_of_finished (h : S.finished c = true) (way : Way) (w : World σ) :
    (S.pull c way w).1.1.closes = true := by
  obtain ⟨hnext, hnext?⟩ := hS.closed c h w
  cases way with
  | next =>
    rw [pull, state_bind_apply, hnext]
    rfl
  | next? =>
    rw [pull, state_bind_apply, hnext?]
    rfl

/-- A pull finishes a source, or finds it finished, exactly if it reports the end or an error. -/
theorem finished_pull (c : κ) (way : Way) (w : World σ) :
    S.finished (S.pull c way w).1.2 = (S.pull c way w).1.1.closes := by
  cases h : S.finished c with
  | true =>
    rw [hS.closes_of_finished h]
    obtain ⟨hnext, hnext?⟩ := hS.closed c h w
    cases way with
    | next =>
      rw [pull, state_bind_apply, hnext]
      exact h
    | next? =>
      rw [pull, state_bind_apply, hnext?]
      exact h
  | false =>
    have hfinished := hS.finished_next c h w
    cases way with
    | next => exact hfinished
    | next? =>
      rw [pull, state_bind_apply, hS.same c h w]
      exact hfinished.trans (Report.closes_next? _).symm

/-- A pull in a row is a pull of the source as the pulls before it left it. -/
theorem of_pulls {ways : List (Way × World σ)} {earlier later : List (Pull κ α)} {p : Pull κ α}
    (h : S.pulls ways c = earlier ++ p :: later) :
    (S.finished p.before = true ↔ S.finished c = true ∨ ∃ q ∈ earlier, q.report.closes = true) ∧
      ∃ way w, (S.pull p.before way w).1 = (p.report, p.after) := by
  -- by induction on the pulls before it, each of which moves the start of the row
  induction earlier generalizing c ways with
  | nil =>
    rcases ways with _ | ⟨⟨way, w⟩, rest⟩
    · cases h
    · rw [pulls, List.nil_append] at h
      obtain ⟨rfl, _⟩ := List.cons.inj h
      exact ⟨by simp, way, w, rfl⟩
  | cons first earlier ih =>
    rcases ways with _ | ⟨⟨way, w⟩, rest⟩
    · cases h
    · rw [pulls, List.cons_append] at h
      obtain ⟨rfl, hrest⟩ := List.cons.inj h
      obtain ⟨hbefore, hpull⟩ := ih hrest
      refine ⟨?_, hpull⟩
      rw [hbefore, hS.finished_pull]
      simp only [List.mem_cons, exists_eq_or_imp]
      constructor
      · exact .inr
      · rintro (hc | hrow)
        · exact .inl (hS.closes_of_finished hc way w)
        · exact hrow

section Row

variable (hc : S.finished c = false) {ways : List (Way × World σ)} {earlier later : List (Pull κ α)} {p : Pull κ α}
  (h : S.pulls ways c = earlier ++ p :: later)
include hc h

theorem finished_before_iff : S.finished p.before = true ↔ ∃ q ∈ earlier, q.report.closes = true := by
  rw [(hS.of_pulls h).1, hc]
  simp

theorem finished_before_eq_false_iff :
    S.finished p.before = false ↔ ∀ q ∈ earlier, q.report.closes = false := by
  rw [← Bool.not_eq_true, hS.finished_before_iff hc h]
  simp

theorem finished_after_iff :
    S.finished p.after = true ↔ ∃ q ∈ earlier ++ [p], q.report.closes = true := by
  obtain ⟨_, way, w, hpull⟩ := hS.of_pulls h
  have hafter := hS.finished_pull p.before way w
  have hclosed := fun hfinished => hS.closes_of_finished (c := p.before) hfinished way w
  rw [hpull, hS.finished_before_iff hc h] at hclosed
  rw [hpull] at hafter
  rw [hafter]
  constructor
  · intro hcloses
    exact ⟨p, by simp, hcloses⟩
  · rintro ⟨q, hq, hcloses⟩
    rcases List.mem_append.1 hq with hq | hq
    · exact hclosed ⟨q, hq, hcloses⟩
    · rw [List.mem_singleton.1 hq] at hcloses
      exact hcloses

/-- A pull that reports the end found the source unfinished. -/
theorem forall_of_end (hend : p.report = .next (.ok none)) : ∀ q ∈ earlier, q.report.closes = false := by
  obtain ⟨_, way, w, hpull⟩ := hS.of_pulls h
  rw [← hS.finished_before_eq_false_iff hc h, ← Bool.not_eq_true]
  intro hfinished
  obtain ⟨hnext, _⟩ := hS.closed p.before hfinished w
  cases way with
  | next =>
    rw [pull, state_bind_apply, hnext] at hpull
    cases (congrArg Prod.fst hpull).trans hend
  | next? => cases (congrArg Prod.fst hpull).trans hend

end Row

theorem lifeCycle (hc : S.finished c = false) : S.LifeCycle c where
  unfinished := hc
  finished_iff := by
    intro ways earlier p later h
    exact ⟨hS.finished_before_iff hc h, hS.finished_after_iff hc h⟩
  same := by
    intro ways earlier p later h hopen
    exact hS.same p.before ((hS.finished_before_eq_false_iff hc h).2 hopen)
  closed := by
    intro ways earlier p later h hclosed
    exact hS.closed p.before ((hS.finished_before_iff hc h).2 hclosed)
  once := by
    intro ways earlier p later h hend
    refine ⟨hS.forall_of_end hc h hend, ?_⟩
    intro q hq hagain
    obtain ⟨between, later', rfl⟩ := List.append_of_mem hq
    have hsplit : S.pulls ways c = (earlier ++ p :: between) ++ q :: later' := by
      rw [h, List.append_assoc]
      rfl
    have hp := hS.forall_of_end hc hsplit hagain p (by simp)
    rw [hend] at hp
    cases hp

end Lawful

end Source

/-! ## Cursors -/

namespace Cursor

theorem next?_of_finished {c : Cursor σ} (h : c.finished = true) (w : World σ) : c.next? w = ((none, c), w) := by
  rw [next?, if_pos h]
  rfl

theorem next?_of_not_finished {c : Cursor σ} (h : c.finished = false) (w : World σ) :
    c.next? w = ((offered (c.next w).1.1, (c.next w).1.2), (c.next w).2) := by
  rw [next?, if_neg (Bool.not_eq_true _ ▸ h), state_bind_apply]
  rcases c.next w with ⟨⟨e | _ | seconds, c'⟩, w'⟩ <;> rfl

theorem finished_next {c : Cursor σ} (h : c.finished = false) (w : World σ) :
    (c.next w).1.2.finished = (Report.next (c.next w).1.1).closes := by
  rw [next, h, if_neg Bool.false_ne_true]
  rcases walk c.reach c.frames w with ⟨e | ⟨_ | seconds, frames⟩, w'⟩ <;> rfl

theorem lawful_source : (source : Source σ (Cursor σ) Binary64).Lawful where
  closed _ h w := ⟨next_of_finished h w, next?_of_finished h w⟩
  same _ h w := next?_of_not_finished h w
  finished_next _ h w := finished_next h w

end Cursor

namespace Pairs

theorem next_apply (p : Pairs σ) (w : World σ) :
    p.next w = (((p.cursor.next w).1.1.map (·.map (·, p.action)), { p with cursor := (p.cursor.next w).1.2 }),
      (p.cursor.next w).2) :=
  rfl

theorem next?_apply (p : Pairs σ) (w : World σ) :
    p.next? w = (((p.cursor.next? w).1.1.map (·.map (·, p.action)), { p with cursor := (p.cursor.next? w).1.2 }),
      (p.cursor.next? w).2) :=
  rfl

theorem lawful_source : (source : Source σ (Pairs σ) (Binary64 × Bound.Call σ)).Lawful where
  closed := by
    intro p h w
    show p.next w = _ ∧ p.next? w = _
    rw [next_apply, Cursor.next_of_finished h, next?_apply, Cursor.next?_of_finished h]
    exact ⟨rfl, rfl⟩
  same := by
    intro p h w
    show p.next? w = ((offered (p.next w).1.1, (p.next w).1.2), (p.next w).2)
    rw [next_apply, next?_apply, Cursor.next?_of_not_finished h]
    rcases p.cursor.next w with ⟨⟨e | _ | seconds, c⟩, w'⟩ <;> rfl
  finished_next := by
    intro p h w
    have hfinished := Cursor.finished_next h w
    show (p.next w).1.2.cursor.finished = (Report.next (p.next w).1.1).closes
    rw [next_apply]
    dsimp only
    rw [hfinished]
    rcases (p.cursor.next w).1.1 with e | _ | seconds <;> rfl

end Pairs

/-- The life of a cursor over the intervals of a statement, and of one over its pairs, in any row of pulls by `next` and
by `next?`. -/
theorem lifeCycle_start (s : Bound.Statement σ Bound.Passes) :
    Cursor.source.LifeCycle (Cursor.start s.schedule) ∧ Pairs.source.LifeCycle (Pairs.start s) :=
  ⟨Cursor.lawful_source.lifeCycle rfl, Pairs.lawful_source.lifeCycle rfl⟩

end Cadence
