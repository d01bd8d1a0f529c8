import Cadence.Proofs.Run.Merging
import Cadence.Proofs.Run.Timeline
import Mathlib.Data.List.Perm.Basic

/-!
# Merged performances keep time

Whatever a clock says, what is taken from merged performances is what a timeline of their statements shows. The queue
holds the statements that have something to do now, and the waiting parts those whose delays are not over
(`Chorus.Keeps`). One step of the part in front of the queue is one act in turn (`Chorus.Keeps.fire`,
`Chorus.Keeps.pull`), and time passes to the next delay that is over only when the queue is empty (`Chorus.Keeps.pass`).
-/

namespace Cadence

open Stream' (Seq)
open Stream'.Seq (nil cons)

variable {σ : Type}

/-! ## The halves of a turn -/

namespace Performance.Stands

variable {s : Bound.Statement σ Bound.Passes} {pace : Binary64 → Binary64} {leaf : Leaf σ} {rest : Seq (Leaf σ)}
  {p : Performance σ}

theorem pull_nil (h : Stands s pace nil p) (w : World σ) : ∃ p', p.pull w = ((.nothing, p'), w) := by
  obtain ⟨c, hnext, _⟩ := h.cursor.next_nil w
  exact ⟨_, pull_of_end h.underway hnext⟩

/-- With a leaf in front, a pull asks for its interval as a delay, or finds that there is none. -/
theorem pull_cons (h : Stands s pace (cons leaf rest) p) (w : World σ) :
    (∃ seconds v p', leaf.pull w = (.ok seconds, v) ∧
        p.pull w = ((.due (pace seconds), p'), v.wait (pace seconds)) ∧ Stands s pace rest p') ∨
      ∃ e v p', leaf.pull w = (.error e, v) ∧ p.pull w = ((.broken e, p'), v) := by
  rcases h.cursor.next_cons w with ⟨seconds, v, c, hpull, hnext, hstands⟩ | ⟨e, v, c, hpull, hnext, _⟩
  · have hdue := pull_of_interval h.underway hnext
    rw [h.pace_eq] at hdue
    exact .inl ⟨seconds, v, _, hpull, hdue, h.underway, rfl, h.action, hstands⟩
  · exact .inr ⟨e, v, _, hpull, pull_of_error h.underway hnext⟩

end Performance.Stands

/-! ## The stages of the parts -/

/-- The stages of some statements. All others are gone. -/
structure Stage.Lists (entries : List (Nat × Stage)) (stages : Nat → Stage) : Prop where
  nodup : (entries.map Prod.fst).Nodup
  stage : ∀ e ∈ entries, stages e.1 = e.2
  gone : ∀ i, i ∉ entries.map Prod.fst → stages i = .gone

namespace Stage.Lists

variable {entries others : List (Nat × Stage)} {stages : Nat → Stage} {e : Nat × Stage}

theorem perm (h : Lists entries stages) (hperm : entries.Perm others) : Lists others stages where
  nodup := (hperm.map Prod.fst).nodup_iff.1 h.nodup
  stage e he := h.stage e (hperm.mem_iff.2 he)
  gone i hi := h.gone i fun hmem => hi ((hperm.map Prod.fst).mem_iff.1 hmem)

theorem gone_or_mem (h : Lists entries stages) (i : Nat) : stages i = .gone ∨ (i, stages i) ∈ entries := by
  by_cases hi : i ∈ entries.map Prod.fst
  · obtain ⟨e, he, rfl⟩ := List.mem_map.1 hi
    rw [h.stage e he]
    exact .inr he
  · exact .inl (h.gone i hi)

private theorem update_of_mem (h : Lists (e :: entries) stages) (stage : Stage) {e' : Nat × Stage}
    (he' : e' ∈ entries) : Function.update stages e.1 stage e'.1 = e'.2 := by
  have hne : e'.1 ≠ e.1 := by
    intro heq
    exact (List.nodup_cons.1 h.nodup).1 (heq ▸ List.mem_map_of_mem he')
  rw [Function.update_of_ne hne]
  exact h.stage e' (List.mem_cons_of_mem e he')

theorem leave (h : Lists (e :: entries) stages) : Lists entries (Function.update stages e.1 .gone) where
  nodup := (List.nodup_cons.1 h.nodup).2
  stage e' he' := h.update_of_mem .gone he'
  gone := by
    intro i hi
    by_cases heq : i = e.1
    · rw [heq, Function.update_self]
    · rw [Function.update_of_ne heq]
      exact h.gone i fun hmem => (List.mem_cons.1 hmem).elim heq hi

theorem move (h : Lists (e :: entries) stages) (stage : Stage) :
    Lists ((e.1, stage) :: entries) (Function.update stages e.1 stage) where
  nodup := h.nodup
  stage := by
    refine List.forall_mem_cons.2 ⟨Function.update_self _ _ _, fun e' he' => h.update_of_mem stage he'⟩
  gone := by
    intro i hi
    have hne : i ≠ e.1 := fun heq => hi (heq ▸ List.mem_cons_self)
    rw [Function.update_of_ne hne]
    exact h.gone i hi

end Stage.Lists

/-- A part is at a stage of a statement: it has the leaves still to go through that come after the firings, and after
the interval that was asked for. -/
inductive Part.At (statements : List (Bound.Statement σ Bound.Passes)) : Nat × Stage → Part σ → Prop
  | pulling {i count time : Nat} {s : Bound.Statement σ Bound.Passes} {p : Performance σ} : statements[i]? = some s →
    p.Stands s id (s.schedule.leaves.drop count) → At statements (i, .pulling count time) ⟨s.action.name, p, false⟩
  | firing {i count time : Nat} {s : Bound.Statement σ Bound.Passes} {p : Performance σ} : statements[i]? = some s →
    p.Stands s id (s.schedule.leaves.drop (count + 1)) →
    At statements (i, .firing count time) ⟨s.action.name, p, true⟩

namespace Chorus

/-- The queue has the statements that have something to do now, and those that have not begun stand in it in order; the
waiting parts are to fire later. All other statements are gone. -/
structure Agenda (statements : List (Bound.Statement σ Bound.Passes)) (stages : Nat → Stage) (now : Nat)
    (queue : List (Part σ)) (waiting : List (Nat × Part σ)) (ready later : List (Nat × Stage)) : Prop where
  lists : Stage.Lists (ready ++ later) stages
  queue : List.Forall₂ (Part.At statements) ready queue
  waiting : List.Forall₂ (fun e entry => Part.At statements e entry.2 ∧ e.2.due? = some entry.1) later waiting
  due : ∀ e ∈ ready, e.2.due? = some now
  late : ∀ e ∈ later, ∃ count time, e.2 = .firing count time ∧ now < time
  order : ready.Pairwise fun a b => b.2 = .pulling 0 0 → a.1 < b.1

def Keeps (statements : List (Bound.Statement σ Bound.Passes)) (stages : Nat → Stage) (now : Nat)
    (queue : List (Part σ)) (waiting : List (Nat × Part σ)) : Prop :=
  ∃ ready later, Agenda statements stages now queue waiting ready later

variable {statements : List (Bound.Statement σ Bound.Passes)} {clock : Clock} {stages : Nat → Stage} {now : Nat}
  {part : Part σ} {queue : List (Part σ)} {waiting : List (Nat × Part σ)} {e : Nat × Stage}
  {ready later : List (Nat × Stage)}

namespace Agenda

/-- Nothing was due before now. -/
theorem now_le (h : Agenda statements stages now queue waiting ready later) {i time : Nat}
    (hdue : (stages i).due? = some time) : now ≤ time := by
  rcases h.lists.gone_or_mem i with hgone | hmem
  · rw [hgone] at hdue
    cases hdue
  rcases List.mem_append.1 hmem with hready | hlater
  · exact Nat.le_of_eq (Option.some.inj ((h.due _ hready).symm.trans hdue))
  · obtain ⟨count, due, hstage, hlate⟩ := h.late _ hlater
    obtain rfl : due = time := Option.some.inj ((congrArg Stage.due? hstage).symm.trans hdue)
    exact Nat.le_of_lt hlate

/-- The statements before the one in front of the queue have begun. -/
theorem begun_of_lt (h : Agenda statements stages now queue waiting (e :: ready) later) {i : Nat} (hi : i < e.1) :
    stages i ≠ .pulling 0 0 := by
  intro hstart
  rcases h.lists.gone_or_mem i with hgone | hmem
  · rw [hgone] at hstart
    cases hstart
  rw [hstart, List.cons_append, List.mem_cons, List.mem_append] at hmem
  rcases hmem with rfl | hready | hlater
  · exact Nat.lt_irrefl i hi
  · exact Nat.lt_asymm hi ((List.pairwise_cons.1 h.order).1 _ hready rfl)
  · obtain ⟨count, time, hstage, _⟩ := h.late _ hlater
    cases hstage

/-- What the statement in front of the queue has to do is in turn. -/
theorem inTurn (h : Agenda statements stages now queue waiting (e :: ready) later) {a : Act} (hindex : a.index = e.1)
    (hbefore : a.before = e.2) : a.InTurn stages where
  stage := by
    rw [hindex, hbefore]
    exact h.lists.stage e List.mem_cons_self
  due := by
    have hnow : a.time = now := by
      have hdue := h.due e List.mem_cons_self
      rw [← hbefore, a.due_before] at hdue
      exact Option.some.inj hdue
    intro i time hdue
    rw [hnow]
    exact h.now_le hdue
  begun := by
    intro i hi
    exact h.begun_of_lt (hindex ▸ hi)

/-- The statement in front leaves for good. -/
theorem leave (h : Agenda statements stages now (part :: queue) waiting (e :: ready) later) :
    Agenda statements (Function.update stages e.1 .gone) now queue waiting ready later where
  lists := h.lists.leave
  queue := (List.forall₂_cons.1 h.queue).2
  waiting := h.waiting
  due e' he' := h.due e' (List.mem_cons_of_mem e he')
  late := h.late
  order := (List.pairwise_cons.1 h.order).2

/-- The statement in front goes to the back of the queue. -/
theorem goBack (h : Agenda statements stages now (part :: queue) waiting (e :: ready) later) {part' : Part σ}
    {count : Nat} (hpart : part'.At statements (e.1, .pulling (count + 1) now)) :
    Agenda statements (Function.update stages e.1 (.pulling (count + 1) now)) now (queue ++ [part']) waiting
      (ready ++ [(e.1, .pulling (count + 1) now)]) later where
  lists := by
    refine (h.lists.move (.pulling (count + 1) now)).perm ?_
    rw [List.append_assoc]
    exact List.perm_middle.symm
  queue := List.rel_append (List.forall₂_cons.1 h.queue).2 (.cons hpart .nil)
  waiting := h.waiting
  due := by
    refine List.forall_mem_append.2 ⟨fun e' he' => h.due e' (List.mem_cons_of_mem e he'), ?_⟩
    exact List.forall_mem_singleton.2 rfl
  late := h.late
  order := by
    refine List.pairwise_append.2 ⟨(List.pairwise_cons.1 h.order).2, List.pairwise_singleton _ _, ?_⟩
    intro a _ b hb hstart
    rw [List.mem_singleton.1 hb] at hstart
    cases hstart

/-- The statement in front goes on to fire at once. -/
theorem stay (h : Agenda statements stages now (part :: queue) waiting (e :: ready) later) {part' : Part σ}
    {count : Nat} (hpart : part'.At statements (e.1, .firing count now)) :
    Agenda statements (Function.update stages e.1 (.firing count now)) now (part' :: queue) waiting
      ((e.1, .firing count now) :: ready) later where
  lists := h.lists.move (.firing count now)
  queue := .cons hpart (List.forall₂_cons.1 h.queue).2
  waiting := h.waiting
  due := List.forall_mem_cons.2 ⟨rfl, fun e' he' => h.due e' (List.mem_cons_of_mem e he')⟩
  late := h.late
  order := .cons (List.pairwise_cons.1 h.order).1 (List.pairwise_cons.1 h.order).2

/-- The statement in front waits until a later time. -/
theorem wait (h : Agenda statements stages now (part :: queue) waiting (e :: ready) later) {part' : Part σ}
    {count time : Nat} (hpart : part'.At statements (e.1, .firing count time)) (htime : now < time) :
    Agenda statements (Function.update stages e.1 (.firing count time)) now queue (waiting ++ [(time, part')])
      ready (later ++ [(e.1, .firing count time)]) where
  lists := by
    refine (h.lists.move (.firing count time)).perm ?_
    rw [← List.append_assoc]
    exact (List.perm_append_singleton _ _).symm
  queue := (List.forall₂_cons.1 h.queue).2
  waiting := List.rel_append h.waiting (.cons ⟨hpart, rfl⟩ .nil)
  due e' he' := h.due e' (List.mem_cons_of_mem e he')
  late := List.forall_mem_append.2 ⟨h.late, List.forall_mem_singleton.2 ⟨count, time, rfl, htime⟩⟩
  order := (List.pairwise_cons.1 h.order).2

/-- The delays that are over first come to the queue, all at the same time. -/
theorem pass (h : Agenda statements stages now [] waiting [] later) {due : Nat} {rest : List (Nat × Part σ)}
    (hdue : nextDue waiting = some (due, queue, rest)) :
    Agenda statements stages due queue rest (later.filter (·.2.due? == some due))
      (later.filter (·.2.due? != some due)) := by
  obtain ⟨least, hleast, hfound⟩ := Option.map_eq_some_iff.1 hdue
  cases hfound
  obtain ⟨_, hmin⟩ := List.min?_eq_some_iff.1 hleast
  have hover : List.Forall₂ (fun e entry => Part.At statements e entry.2 ∧ e.2.due? = some entry.1)
      (later.filter (·.2.due? == some due)) (waiting.filter (·.1 == due)) := by
    refine List.rel_filter (fun e entry h => ?_) h.waiting
    simp [h.2]
  have hlater : List.Forall₂ (fun e entry => Part.At statements e entry.2 ∧ e.2.due? = some entry.1)
      (later.filter (·.2.due? != some due)) (waiting.filter (·.1 != due)) := by
    refine List.rel_filter (fun e entry h => ?_) h.waiting
    simp [h.2]
  refine ⟨?_, ?_, hlater, ?_, ?_, ?_⟩
  · exact h.lists.perm (List.filter_append_perm _ later).symm
  · exact List.forall₂_map_right_iff.2 (hover.imp fun e entry h => h.1)
  · intro e he
    exact eq_of_beq (List.mem_filter.1 he).2
  · intro e he
    obtain ⟨i, hi, rfl⟩ := List.getElem_of_mem he
    obtain ⟨count, time, hstage, _⟩ := h.late _ (List.mem_filter.1 he).1
    have hi' : i < (waiting.filter (·.1 != due)).length := hlater.length_eq ▸ hi
    have hentry := (hlater.get hi hi').2
    obtain ⟨hmem, hne⟩ := List.mem_filter.1 (List.getElem_mem hi')
    have hle := hmin _ (List.mem_map_of_mem hmem)
    simp only [List.get_eq_getElem] at hentry
    rw [hstage, Stage.due?] at hentry
    refine ⟨count, time, hstage, ?_⟩
    rw [Option.some.inj hentry]
    exact Nat.lt_of_le_of_ne hle (Ne.symm (bne_iff_ne.1 hne))
  · -- all of them are to fire, so none has yet to begin
    refine List.pairwise_of_forall_mem_list fun a _ b hb hstart => ?_
    obtain ⟨count, time, hstage, _⟩ := h.late b (List.mem_filter.1 hb).1
    rw [hstage] at hstart
    cases hstart

end Agenda

theorem ne_nil_of_nextDue {due : Nat} {rest : List (Nat × Part σ)} (h : nextDue waiting = some (due, queue, rest)) :
    queue ≠ [] := by
  obtain ⟨least, hleast, hfound⟩ := Option.map_eq_some_iff.1 h
  cases hfound
  obtain ⟨entry, hentry, rfl⟩ := List.mem_map.1 (List.min?_mem hleast)
  exact List.ne_nil_of_mem (List.mem_map_of_mem (List.mem_filter.2 ⟨hentry, beq_self_eq_true entry.1⟩))

/-- A part that is to fire does so, in turn. -/
theorem Keeps.fire (h : Keeps statements stages now (part :: queue) waiting) (hfiring : part.firing = true)
    (w : World σ) :
    ∃ (a : Act) (happening : Happening) (queue' : List (Part σ)) (w' : World σ), a.InTurn stages ∧
      a.Goes statements w w' ∧ a.happening? statements = some happening ∧
      Chorus.fire now part queue waiting w = ((some happening, ⟨now, queue', waiting⟩), w') ∧
      Keeps statements (Function.update stages a.index (a.after clock)) now queue' waiting := by
  obtain ⟨ready, later, h⟩ := h
  rcases ready with _ | ⟨⟨i, stage⟩, ready⟩
  · cases h.queue
  have hpart := (List.forall₂_cons.1 h.queue).1
  cases hpart with
  | pulling => cases hfiring
  | @firing _ count time s p hs hstands =>
    obtain rfl : time = now := Option.some.inj (h.due _ List.mem_cons_self)
    have hturn : ∀ result, (⟨i, count, time, .fire result⟩ : Act).InTurn stages := fun result => h.inTurn rfl rfl
    rcases hinvoke : s.action.invoke w with ⟨e | value, w'⟩
    · have hfire := Performance.fire_of_error (hstands.action ▸ hinvoke)
      refine ⟨⟨i, count, time, .fire (.error e)⟩, ⟨s.action.name, time, .error e⟩, queue, w', hturn _, .fire hs hinvoke,
        ?_, ?_, ready, later, h.leave⟩
      · simp [Act.happening?, hs, Deed.result?]
      · rw [Chorus.fire, state_bind_apply, hfire]
        dsimp only
        rw [if_pos rfl, List.append_nil]
        rfl
    · have hfire := Performance.fire_of_ok (hstands.action ▸ hinvoke)
      refine ⟨⟨i, count, time, .fire (.ok value)⟩, ⟨s.action.name, time, .ok value⟩,
        queue ++ [⟨s.action.name, p, false⟩], w', hturn _, .fire hs hinvoke, ?_, ?_, _, later,
        h.goBack (.pulling hs hstands)⟩
      · simp [Act.happening?, hs, Deed.result?]
      · rw [Chorus.fire, state_bind_apply, hfire]
        dsimp only
        rw [hstands.underway]
        rfl

/-- A part that is to pull does so, in turn. It leaves if it finds no interval, and otherwise it fires when the delay is
over: at once, or later. -/
theorem Keeps.pull (h : Keeps statements stages now (part :: queue) waiting) (hidle : part.firing = false)
    (w : World σ) :
    (∃ (a : Act) (p : Performance σ), a.InTurn stages ∧ a.Goes statements w w ∧ a.happening? statements = none ∧
        part.performance.pull w = ((.nothing, p), w) ∧
        Keeps statements (Function.update stages a.index (a.after clock)) now queue waiting) ∨
      (∃ (a : Act) (e : Error) (p : Performance σ) (w' : World σ), a.InTurn stages ∧ a.Goes statements w w' ∧
        a.happening? statements = some ⟨part.name, now, .error e⟩ ∧
        part.performance.pull w = ((.broken e, p), w') ∧
        Keeps statements (Function.update stages a.index (a.after clock)) now queue waiting) ∨
      ∃ (a : Act) (seconds : Binary64) (p : Performance σ) (w' : World σ), a.InTurn stages ∧
        a.Goes statements w w' ∧ a.happening? statements = none ∧
        part.performance.pull w = ((.due seconds, p), w') ∧
        (clock seconds = 0 → Keeps statements (Function.update stages a.index (a.after clock)) now
          (⟨part.name, p, true⟩ :: queue) waiting) ∧
        (clock seconds ≠ 0 → Keeps statements (Function.update stages a.index (a.after clock)) now queue
          (waiting ++ [(now + clock seconds, ⟨part.name, p, true⟩)])) := by
  obtain ⟨ready, later, h⟩ := h
  rcases ready with _ | ⟨⟨i, stage⟩, ready⟩
  · cases h.queue
  have hpart := (List.forall₂_cons.1 h.queue).1
  cases hpart with
  | firing => cases hidle
  | @pulling _ count time s p hs hstands =>
    obtain rfl : time = now := Option.some.inj (h.due _ List.mem_cons_self)
    cases hrest : s.schedule.leaves.drop count with
    | nil =>
      obtain ⟨p', hpull⟩ := (hrest ▸ hstands : p.Stands s id nil).pull_nil w
      refine .inl ⟨⟨i, count, time, .leave⟩, p', h.inTurn rfl rfl, .leave hs (get?_of_drop_eq_nil hrest), ?_, hpull,
        ready, later, h.leave⟩
      simp [Act.happening?, Deed.result?]
    | cons leaf rest =>
      have hleaf := get?_of_drop_eq_cons hrest
      have hnext : s.schedule.leaves.drop (count + 1) = rest := drop_succ_of_drop_eq_cons hrest
      rcases (hrest ▸ hstands : p.Stands s id (cons leaf rest)).pull_cons w with
        ⟨seconds, v, p', hinterval, hpull, hstands'⟩ | ⟨e, v, p', hinterval, hpull⟩
      · refine .inr (.inr ⟨⟨i, count, time, .ask seconds⟩, seconds, p', v.wait seconds, h.inTurn rfl rfl,
          .ask hs hleaf hinterval, ?_, hpull, ?_, ?_⟩)
        · simp [Act.happening?, Deed.result?]
        · intro hzero
          rw [Act.after_ask, hzero, Nat.add_zero]
          exact ⟨_, later, h.stay (.firing hs (hnext ▸ hstands'))⟩
        · intro hpositive
          have htime : time < time + clock seconds := by omega
          exact ⟨ready, _, h.wait (.firing hs (hnext ▸ hstands')) htime⟩
      · refine .inr (.inl ⟨⟨i, count, time, .fail e⟩, e, p', v, h.inTurn rfl rfl, .fail hs hleaf hinterval, ?_, hpull,
          ready, later, h.leave⟩)
        simp [Act.happening?, hs, Deed.result?]

/-! ## What is taken -/

/-- What comes next: acts that show nothing, and then one that shows a happening; or acts after which all statements are
gone. -/
inductive Advances (statements : List (Bound.Statement σ Bound.Passes)) (clock : Clock) (stages : Nat → Stage)
    (w : World σ) : Option Happening × Chorus σ → World σ → Prop
  | shows {acts : List Act} {a : Act} {last : Nat → Stage} {happening : Happening} {c : Chorus σ} {w' : World σ} :
    Timeline statements clock stages w (acts ++ [a]) last w' → acts.filterMap (·.happening? statements) = [] →
    a.happening? statements = some happening → Keeps statements last c.now c.queue c.waiting →
    Advances statements clock stages w (some happening, c) w'
  | stops {acts : List Act} {last : Nat → Stage} {time : Nat} {w' : World σ} :
    Timeline statements clock stages w acts last w' → acts.filterMap (·.happening? statements) = [] →
    (∀ i, last i = .gone) → Advances statements clock stages w (none, ⟨time, [], []⟩) w'

theorem Advances.of_silent {a : Act} {w v w' : World σ} {result : Option Happening × Chorus σ}
    (hturn : a.InTurn stages) (hgoes : a.Goes statements w v) (hsilent : a.happening? statements = none)
    (h : Advances statements clock (Function.update stages a.index (a.after clock)) v result w') :
    Advances statements clock stages w result w' := by
  cases h with
  | @shows acts b last _ _ _ hacts hnone hshows hkeeps =>
    have hall : Timeline statements clock stages w (a :: acts ++ [b]) last w' := .cons hturn hgoes hacts
    refine .shows hall ?_ hshows hkeeps
    rw [List.filterMap_cons_none hsilent, hnone]
  | stops hacts hnone hgone =>
    refine .stops (.cons hturn hgoes hacts) ?_ hgone
    rw [List.filterMap_cons_none hsilent, hnone]

theorem Advances.of_shows {a : Act} {happening : Happening} {c : Chorus σ} {w w' : World σ} (hturn : a.InTurn stages)
    (hgoes : a.Goes statements w w') (hshows : a.happening? statements = some happening)
    (hkeeps : Keeps statements (Function.update stages a.index (a.after clock)) c.now c.queue c.waiting) :
    Advances statements clock stages w (some happening, c) w' := by
  have hacts : Timeline statements clock stages w ([] ++ [a]) (Function.update stages a.index (a.after clock)) w' :=
    .cons hturn hgoes .nil
  exact .shows hacts rfl hshows hkeeps

/-- A part that is to fire shows that at once. -/
theorem Keeps.advances_fire (h : Keeps statements stages now (part :: queue) waiting) (hfiring : part.firing = true)
    (w : World σ) : Advances statements clock stages w (Chorus.fire now part queue waiting w).1
      (Chorus.fire now part queue waiting w).2 := by
  obtain ⟨a, happening, queue', w', hturn, hgoes, hshows, hfire, hkeeps⟩ := h.fire hfiring w
  rw [hfire]
  exact .of_shows hturn hgoes hshows hkeeps

theorem Keeps.advances (h : Keeps statements stages now queue waiting) (w : World σ) :
    Advances statements clock stages w (nextFrom clock now waiting queue w).1
      (nextFrom clock now waiting queue w).2 := by
  induction queue generalizing stages waiting w with
  | nil =>
    obtain ⟨ready, later, h⟩ := h
    obtain rfl : ready = [] := List.forall₂_nil_right_iff.1 h.queue
    rw [nextFrom]
    cases hdue : nextDue waiting with
    | none =>
      obtain rfl : waiting = [] := (nextDue_eq_none_iff waiting).1 hdue
      obtain rfl : later = [] := List.forall₂_nil_right_iff.1 h.waiting
      exact .stops .nil rfl fun i => h.lists.gone i List.not_mem_nil
    | some found =>
      obtain ⟨due, queue, rest⟩ := found
      obtain ⟨part, queue, rfl⟩ := List.exists_cons_of_ne_nil (ne_nil_of_nextDue hdue)
      have hpass := h.pass hdue
      have hfiring : part.firing = true := by
        obtain ⟨e, ready, hpart, _, hready⟩ := List.forall₂_cons_right_iff.1 hpass.queue
        have he : e ∈ later.filter (·.2.due? == some due) := hready ▸ List.mem_cons_self
        obtain ⟨count, time, hstage, _⟩ := h.late e (List.mem_filter.1 he).1
        cases hpart with
        | pulling => cases hstage
        | firing => rfl
      have hkeeps : Keeps statements stages due (part :: queue) rest := ⟨_, _, hpass⟩
      exact hkeeps.advances_fire hfiring w
  | cons part queue ih =>
    cases hfiring : part.firing with
    | true =>
      rw [nextFrom, if_pos hfiring]
      exact h.advances_fire hfiring w
    | false =>
      rw [nextFrom, hfiring, if_neg Bool.false_ne_true, state_bind_apply]
      rcases h.pull hfiring w with ⟨a, p, hturn, hgoes, hsilent, hpull, hkeeps⟩ |
        ⟨a, e, p, w', hturn, hgoes, hshows, hpull, hkeeps⟩ |
        ⟨a, seconds, p, w', hturn, hgoes, hsilent, hpull, hnow, hlater⟩
      · rw [hpull]
        exact .of_silent hturn hgoes hsilent (ih hkeeps w)
      · rw [hpull]
        exact .of_shows hturn hgoes hshows hkeeps
      · rw [hpull]
        refine .of_silent hturn hgoes hsilent ?_
        dsimp only
        split
        · -- the delay does not last, and no other part does anything before it is over
          next hzero => exact (hnow hzero).advances_fire rfl w'
        · next hpositive => exact ih (hlater hpositive) w'

/-- What is taken is what a timeline shows. Nothing is done after the last happening that was asked for; and there are
fewer than asked for only if all statements are gone. -/
theorem Keeps.exists_timeline {c : Chorus σ} (h : Keeps statements stages c.now c.queue c.waiting) (count : Nat)
    (w : World σ) :
    ∃ acts last happenings c' w', c.take clock count w = ((happenings, c'), w') ∧
      Timeline statements clock stages w acts last w' ∧ happenings = acts.filterMap (·.happening? statements) ∧
      happenings.length ≤ count ∧
      (happenings.length = count → acts = [] ∨ ∃ front a, acts = front ++ [a] ∧ (a.happening? statements).isSome) ∧
      (happenings.length < count → (∀ i, last i = .gone) ∧ ∀ more v, c'.take clock more v = (([], c'), v)) := by
  induction count generalizing stages c w with
  | zero =>
    exact ⟨[], stages, [], c, w, rfl, .nil, rfl, Nat.le_refl 0, fun _ => .inl rfl,
      fun hfewer => absurd hfewer (Nat.not_lt_zero _)⟩
  | succ count ih =>
    have hnext : Advances statements clock stages w (c.next clock w).1 (c.next clock w).2 := h.advances w
    rw [take_succ]
    rcases hresult : c.next clock w with ⟨⟨_ | happening, c'⟩, v⟩ <;> rw [hresult] at hnext
    · cases hnext with
      | @stops acts last time _ hacts hnone hgone =>
        refine ⟨acts, last, [], _, v, rfl, hacts, hnone.symm, Nat.zero_le _, ?_, fun _ => ⟨hgone, ?_⟩⟩
        · intro h
          cases h
        · exact take_of_empty clock
    · cases hnext with
      | @shows acts a last _ _ _ hacts hnone hshows hkeeps =>
        obtain ⟨more, last', happenings, c'', w', htake, hmore, hhappenings, hlength, hend, hgone⟩ := ih hkeeps v
        refine ⟨acts ++ [a] ++ more, last', happening :: happenings, c'', w', ?_, hacts.append hmore, ?_,
          Nat.succ_le_succ hlength, ?_, fun hfewer => hgone (Nat.lt_of_succ_lt_succ hfewer)⟩
        · dsimp only
          rw [htake]
        · rw [List.filterMap_append, List.filterMap_append, hnone, ← hhappenings, List.filterMap_cons_some hshows]
          rfl
        · intro hcount
          rcases hend (Nat.succ.inj hcount) with rfl | ⟨front, b, rfl, hb⟩
          · exact .inr ⟨acts, a, List.append_nil _, by rw [hshows, Option.isSome_some]⟩
          · exact .inr ⟨acts ++ [a] ++ front, b, (List.append_assoc _ _ _).symm, hb⟩

theorem keeps_start (h : ∀ s ∈ statements, s.schedule.Solid) :
    Keeps statements (Stage.ofStart statements.length) 0 (start statements).queue [] := by
  refine ⟨(List.range statements.length).map fun i => (i, .pulling 0 0), [], ⟨?_, ?_, ?_⟩, ?_, .nil, ?_, ?_, ?_⟩
  · simpa [Function.comp_def] using List.nodup_range
  · intro e he
    simp only [List.append_nil, List.mem_map, List.mem_range] at he
    obtain ⟨i, hi, rfl⟩ := he
    exact if_pos hi
  · intro i hi
    refine if_neg fun hlt => hi ?_
    simpa [Function.comp_def] using hlt
  · refine List.forall₂_map_left_iff.2 (List.forall₂_iff_get.2 ⟨by simp [start], fun i hi hi' => ?_⟩)
    have hlt : i < statements.length := by simpa using hi
    have hget : statements[i]? = some statements[i] := List.getElem?_eq_getElem hlt
    have hstands : Performance.Stands statements[i] id statements[i].schedule.leaves
        (Performance.start statements[i] id) := Performance.stands_start (h statements[i] (List.getElem_mem hlt))
    have hpart : Part.At statements (i, .pulling 0 0)
        ⟨statements[i].action.name, Performance.start statements[i] id, false⟩ := .pulling hget hstands
    simpa [start] using hpart
  · intro e he
    obtain ⟨i, _, rfl⟩ := List.mem_map.1 he
    rfl
  · intro e he
    cases he
  · rw [List.pairwise_map]
    refine List.pairwise_lt_range.imp ?_
    intro i j hlt _
    exact hlt

end Chorus

theorem Act.time_of_happening? {statements : List (Bound.Statement σ Bound.Passes)} {a : Act} {happening : Happening}
    (h : a.happening? statements = some happening) : happening.time = a.time := by
  obtain ⟨s, _, h⟩ := Option.bind_eq_some_iff.1 h
  obtain ⟨result, _, h⟩ := Option.bind_eq_some_iff.1 h
  cases h
  rfl

/-- Whatever number of happenings is taken from bound statements that are performed side by side, on whatever clock,
they are shown by the acts of punctual statements, in the order of time. After the last happening that was asked for
nothing is done. There are fewer than asked for only if nothing is left to do, and from then on nothing happens. -/
theorem take_eq_timeline {statements : List (Bound.Statement σ Bound.Passes)} (h : ∀ s ∈ statements, s.IsBound)
    (clock : Clock) (count : Nat) (w : World σ) :
    ∃ acts happenings c w', (Chorus.start statements).take clock count w = ((happenings, c), w') ∧
      Punctual statements clock w acts w' ∧ happenings = acts.filterMap (·.happening? statements) ∧
      (happenings.Pairwise fun x y => x.time ≤ y.time) ∧ happenings.length ≤ count ∧
      (happenings.length = count → acts = [] ∨ ∃ front a, acts = front ++ [a] ∧ (a.happening? statements).isSome) ∧
      (happenings.length < count →
        Concluded statements.length clock acts ∧ ∀ more v, c.take clock more v = (([], c), v)) := by
  have hkeeps := Chorus.keeps_start fun s hs => (h s hs).solid
  obtain ⟨acts, last, happenings, c, w', htake, hacts, rfl, hlength, hend, hover⟩ :=
    Chorus.Keeps.exists_timeline (c := Chorus.start statements) hkeeps count w
  refine ⟨acts, _, c, w', htake, hacts.punctual, rfl, ?_, hlength, hend, ?_⟩
  · refine List.pairwise_filterMap.2 (hacts.ordered.imp ?_)
    intro a b hle x hx y hy
    rw [Act.time_of_happening? hx, Act.time_of_happening? hy]
    exact hle
  · intro hfewer
    obtain ⟨hgone, hnothing⟩ := hover hfewer
    exact ⟨hacts.concluded hgone, hnothing⟩

/-- `ping()@[4]:2`. -/
def Sample.pinging : Statement :=
  ⟨⟨"ping", []⟩, ⟨[.interval (.int 4)], .times 2⟩⟩

/-- `ping()@[4]:2`, bound. -/
def Sample.pingingTwice : Bound.Statement Nat Bound.Passes :=
  ⟨⟨"ping", Sample.ping, []⟩, ⟨[.interval (.ofInt 4)], .times 2⟩, Sample.pinging.text⟩

theorem take_eq_timeline_tick :
    (∀ s ∈ [Sample.tickingTwice, Sample.pingingTwice], s.IsBound) ∧
      ∃ acts happenings w', Punctual [Sample.tickingTwice, Sample.pingingTwice] .steady (.fresh 5) acts w' ∧
        happenings = acts.filterMap (·.happening? [Sample.tickingTwice, Sample.pingingTwice]) ∧
        Concluded 2 .steady acts ∧ happenings.map Happening.time = [1000, 4000, 6000, 7000, 8000, 13000] ∧
        w'.delays = [.ofInt 1, .ofInt 4, .ofInt 5, .ofInt 4, .ofInt 1, .ofInt 6] := by
  have hbind : Statements.bind Sample.actions Sample.functions [Sample.ticking (.times 2), Sample.pinging] (.fresh 0)
      = (.ok [Sample.tickingTwice, Sample.pingingTwice], .fresh 0) := rfl
  have hbound : ∀ s ∈ [Sample.tickingTwice, Sample.pingingTwice], s.IsBound :=
    fun s hs => ⟨_, _, _, _, _, _, hbind, hs⟩
  obtain ⟨acts, happenings, c, w', htake, hpunctual, hshown, _, _, _, hend⟩ :=
    take_eq_timeline hbound .steady 9 (.fresh 5)
  have hrun : (((Chorus.start [Sample.tickingTwice, Sample.pingingTwice]).take .steady 9 (.fresh 5)).1.1).map
        Happening.time = [1000, 4000, 6000, 7000, 8000, 13000] ∧
      ((Chorus.start [Sample.tickingTwice, Sample.pingingTwice]).take .steady 9 (.fresh 5)).2.delays
        = [.ofInt 1, .ofInt 4, .ofInt 5, .ofInt 4, .ofInt 1, .ofInt 6] := by
    decide +kernel
  rw [htake] at hrun
  have hfewer : happenings.length < 9 := by
    rw [← List.length_map Happening.time, hrun.1]
    decide
  exact ⟨hbound, acts, happenings, w', hpunctual, hshown, (hend hfewer).1, hrun⟩

end Cadence
