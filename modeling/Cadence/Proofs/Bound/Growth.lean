import Cadence.Proofs.Bound.Answers
import Cadence.Proofs.Bound.Passes
import Cadence.Proofs.Callable.Registrations
import Cadence.Proofs.Run.Counts

/-!
# Registries that grow

A program that was bound is bound in the same way after any further registrations. A registry that grows keeps what it
holds under each name (`Registry.extends_registerAll`), so whatever could be looked up before is looked up with the same
callables (`Statements.carries_bound`), and binding is the same computation. What that gives is decided by the answers
of the calls for numbers of passes alone (`Host.Replays`): wherever the same calls are answered in the same way, the
program is bound to the same statements.
-/

namespace Cadence

variable {σ α β : Type}

/-! ## Looking up in a greater registry -/

/-- A registry holds all that another one holds, under the same names. -/
structure Registry.Extends (r r' : Registry σ) : Prop where
  kind : r'.kind = r.kind
  found : ∀ name c, r.get? name = some c → r'.get? name = some c

theorem Registry.extends_registerAll (r : Registry σ) (attempts : List (Registration σ)) :
    r.Extends (r.registerAll attempts).2 where
  kind := kind_registerAll r attempts
  found name c h := by
    rw [get?_registerAll, h]
    rfl

theorem Scheduler.extends_registerAll (s : Scheduler σ) (attempts : List (Kind × Registration σ)) (kind : Kind) :
    (s.registry kind).Extends ((s.registerAll attempts).2.registry kind) := by
  rw [(registerAll_ofKind s attempts kind).1]
  exact (s.registry kind).extends_registerAll _

/-- What is found well in one way is found in another way as well, and is the same. -/
def Carries (found found' : Except Error α) : Prop :=
  ∀ a, found = .ok a → found' = .ok a

namespace Carries

theorem refl (found : Except Error α) : Carries found found :=
  fun _ h => h

theorem bind {found found' : Except Error α} {f f' : α → Except Error β} (h : Carries found found')
    (hf : ∀ a, Carries (f a) (f' a)) : Carries (found >>= f) (found' >>= f') := by
  intro b hb
  obtain ⟨a, ha, hb⟩ := result_bind_eq_ok_iff.1 hb
  exact result_bind_eq_ok_iff.2 ⟨a, h a ha, hf a b hb⟩

end Carries

section Lookup

variable {registry registry' functions functions' : Registry σ}

theorem Registry.Extends.carries_find (h : registry.Extends registry') (name : String) (arguments : List Argument) :
    Carries (registry.find name arguments) (registry'.find name arguments) := by
  intro c hc
  obtain ⟨hget, haccepts⟩ := Registry.of_find hc
  rw [Registry.find, h.found name c hget]
  exact if_pos haccepts

mutual

theorem Argument.carries_bound (h : functions.Extends functions') :
    ∀ a : Argument, Carries (a.bound functions) (a.bound functions')
  | .literal _ => .refl _
  | .list items => (Arguments.carries_bound h items).bind fun _ => .refl _
  | .map entries => (Entries.carries_bound h entries).bind fun _ => .refl _
  | .call name arguments => (h.carries_find name arguments).bind fun _ =>
      (Arguments.carries_bound h arguments).bind fun _ => .refl _

theorem Arguments.carries_bound (h : functions.Extends functions') :
    ∀ arguments : List Argument, Carries (Arguments.bound functions arguments) (Arguments.bound functions' arguments)
  | [] => .refl _
  | a :: rest => (Argument.carries_bound h a).bind fun _ => (Arguments.carries_bound h rest).bind fun _ => .refl _

theorem Entries.carries_bound (h : functions.Extends functions') :
    ∀ entries : Entries, Carries (Entries.bound functions entries) (Entries.bound functions' entries)
  | [] => .refl _
  | (k, v) :: rest => (Argument.carries_bound h k).bind fun _ => (Argument.carries_bound h v).bind fun _ =>
      (Entries.carries_bound h rest).bind fun _ => .refl _

end

theorem Call.carries_bound (hr : registry.Extends registry') (h : functions.Extends functions') (c : Call) :
    Carries (c.bound registry functions) (c.bound registry' functions') :=
  (hr.carries_find c.name c.arguments).bind fun _ => (Arguments.carries_bound h c.arguments).bind fun _ => .refl _

theorem Repeat.carries_bound (h : functions.Extends functions') (s : Schedule) (passes : Repeat) :
    Carries (passes.bound functions s) (passes.bound functions' s) := by
  cases passes with
  | times n => exact .refl _
  | forever => exact .refl _
  | call c => exact (c.carries_bound h h).bind fun _ => .refl _

mutual

theorem Item.carries_bound (h : functions.Extends functions') :
    ∀ a : Item, Carries (a.bound functions) (a.bound functions')
  | .interval _ => .refl _
  | .call c => (c.carries_bound h h).bind fun _ => .refl _
  | .schedule items passes => (Items.carries_bound h items).bind fun _ =>
      (passes.carries_bound h ⟨items, passes⟩).bind fun _ => .refl _

theorem Items.carries_bound (h : functions.Extends functions') :
    ∀ items : List Item, Carries (Items.bound functions items) (Items.bound functions' items)
  | [] => .refl _
  | a :: rest => (Item.carries_bound h a).bind fun _ => (Items.carries_bound h rest).bind fun _ => .refl _

end

theorem Statement.carries_bound (hr : registry.Extends registry') (h : functions.Extends functions') (s : Statement) :
    Carries (s.bound registry functions) (s.bound registry' functions') := by
  have hschedule : Carries (s.schedule.bound functions) (s.schedule.bound functions') :=
    (Items.carries_bound h s.schedule.items).bind fun _ =>
      (s.schedule.passes.carries_bound h s.schedule).bind fun _ => .refl _
  exact (s.action.carries_bound hr h).bind fun _ => hschedule.bind fun _ => .refl _

/-- A program that can be looked up is looked up with the same callables in greater registries. -/
theorem Statements.carries_bound (hr : registry.Extends registry') (h : functions.Extends functions')
    (program : List Statement) :
    Carries (program.mapM (Statement.bound registry functions))
      (program.mapM (Statement.bound registry' functions')) := by
  induction program with
  | nil => exact .refl _
  | cons s rest ih =>
    rw [List.mapM_cons, List.mapM_cons]
    exact (s.carries_bound hr h).bind fun _ => ih.bind fun _ => .refl _

end Lookup

/-! ## The same answers -/

/-- A computation that gives a value makes the calls of some nodes, and their answers decide about the value: wherever
the same calls are answered in the same way, it gives this value too, after these calls. -/
def Host.Replays (nodes : List (Bound.Call σ)) (m : Host σ α) : Prop :=
  ∀ w w' a, m w = (.ok a, w') → ∃ answered : List (Bound.Answered σ), answered.map (·.node) = nodes ∧
    Bound.Answering w answered w' ∧ ∀ v v', Bound.Answering v answered v' → m v = (.ok a, v')

/-- The answers of two rows of calls, one behind the other. -/
theorem Bound.Answering.exists_of_append {answered more : List (Bound.Answered σ)} {w w' : World σ}
    (h : Bound.Answering w (answered ++ more) w') :
    ∃ v, Bound.Answering w answered v ∧ Bound.Answering v more w' := by
  induction answered generalizing w with
  | nil => exact ⟨w, .nil, h⟩
  | cons a rest ih =>
    cases h with
    | cons hcall hrest =>
      obtain ⟨v, hbefore, hmore⟩ := ih hrest
      exact ⟨v, .cons hcall hbefore, hmore⟩

namespace Host.Replays

theorem pure (a : α) : Host.Replays [] (pure a : Host σ α) := by
  rintro w _ _ ⟨⟩
  refine ⟨[], rfl, .nil, ?_⟩
  rintro v _ ⟨⟩
  rfl

theorem ofResult (result : Except Error α) : Host.Replays [] (Host.ofResult result : Host σ α) := by
  rintro w _ a h
  obtain ⟨rfl, rfl⟩ := Host.ofResult_eq_ok_iff.1 h
  refine ⟨[], rfl, .nil, ?_⟩
  rintro v _ ⟨⟩
  rfl

theorem bind {nodes others : List (Bound.Call σ)} {m : Host σ α} {f : α → Host σ β} (hm : Host.Replays nodes m)
    (hf : ∀ a, Host.Replays others (f a)) : Host.Replays (nodes ++ others) (m >>= f) := by
  intro w w' b h
  obtain ⟨a, v, hmw, hfv⟩ := Host.bind_eq_ok_iff.1 h
  obtain ⟨answered, hnodes, hanswered, hagain⟩ := hm w v a hmw
  obtain ⟨more, hothers, hmore, hagain'⟩ := hf a v w' b hfv
  refine ⟨answered ++ more, ?_, hanswered.append hmore, ?_⟩
  · rw [List.map_append, hnodes, hothers]
  · intro u u' hu
    obtain ⟨v', hbefore, hbehind⟩ := hu.exists_of_append
    rw [Host.bind_of_ok (hagain u v' hbefore)]
    exact hagain' v' u' hbehind

theorem map {nodes : List (Bound.Call σ)} {m : Host σ α} (hm : Host.Replays nodes m) (f : α → β) :
    Host.Replays nodes (m >>= fun a => (Pure.pure (f a) : Host σ β)) := by
  have h := hm.bind fun a => Replays.pure (σ := σ) (f a)
  rwa [List.append_nil] at h

/-- A call is decided by the answers of the calls within its arguments and by its own. -/
theorem call (node : Bound.Call σ) {m : Host σ (List Value)} {nodes : List (Bound.Call σ)}
    (hm : Host.Replays nodes m) : Host.Replays (nodes ++ [node]) (m >>= node.callable.call node.name) := by
  refine hm.bind fun values w w' value h => ?_
  have hcall : w.call node.callable values = (.returned value, w') := by
    rw [Callable.call] at h
    split at h
    · next hcall =>
      cases h
      exact hcall
    · cases h
    · cases h
  refine ⟨[⟨node, values, value⟩], rfl, .cons hcall .nil, ?_⟩
  intro v v' hv
  cases hv with
  | cons hcall' hnil =>
    cases hnil
    rw [Callable.call, hcall']

end Host.Replays

namespace Bound

mutual

theorem Argument.replays_evaluate : ∀ a : Argument σ, Host.Replays a.nodes a.evaluate
  | .literal l => .pure l.toValue
  | .list items => (Arguments.replays_evaluate items).map Value.list
  | .map entries => (Entries.replays_evaluate entries).map Value.map
  | .call name callable arguments => .call ⟨name, callable, arguments⟩ (Arguments.replays_evaluate arguments)

theorem Arguments.replays_evaluate : ∀ arguments : List (Argument σ),
    Host.Replays (Arguments.nodes arguments) (Arguments.evaluate arguments)
  | [] => .pure []
  | a :: rest => (Argument.replays_evaluate a).bind fun value => (Arguments.replays_evaluate rest).map (value :: ·)

theorem Entries.replays_evaluate : ∀ entries : List (Argument σ × Argument σ),
    Host.Replays (Entries.nodes entries) (Entries.evaluate entries)
  | [] => .pure []
  | (k, v) :: rest => (Argument.replays_evaluate k).bind fun key =>
      (Argument.replays_evaluate v).bind fun value => (Entries.replays_evaluate rest).map ((key, value) :: ·)

end

theorem Call.replays_ask (c : Call σ) : Host.Replays c.nodes c.ask := by
  rw [← List.append_nil c.nodes]
  exact (Host.Replays.call c (Arguments.replays_evaluate c.arguments)).bind fun value => .ofResult (c.passes value)

theorem replays_mapM_ask (calls : List (Call σ)) : Host.Replays (calls.flatMap Call.nodes) (calls.mapM Call.ask) := by
  induction calls with
  | nil => exact .pure []
  | cons c rest ih =>
    rw [List.mapM_cons, List.flatMap_cons]
    exact c.replays_ask.bind fun n => ih.map (n :: ·)

/-- Settling some statements is decided by the answers of their calls for numbers of passes. -/
theorem Statements.replays_settle (statements : List (Statement σ (Repeat σ))) :
    Host.Replays ((statements.flatMap fun s => s.schedule.toItem.passesCalls).flatMap Call.nodes)
      (statements.mapM Statement.settle) := by
  rw [(Statements.asks statements).eq]
  exact (replays_mapM_ask _).map (Statements.fill statements)

end Bound

/-- A program that was bound could be looked up. -/
theorem exists_looked_of_bind {actions functions : Registry σ} {program : List Statement} {w w' : World σ}
    {bound : List (Bound.Statement σ Bound.Passes)}
    (h : Statements.bind actions functions program w = (.ok bound, w')) :
    ∃ looked, program.mapM (Statement.bound actions functions) = .ok looked := by
  cases hlooked : program.mapM (Statement.bound actions functions) with
  | ok looked => exact ⟨looked, rfl⟩
  | error e =>
    rw [Statements.bind_of_error hlooked] at h
    cases h

/-- A program that a scheduler bound is bound by the same computation after any further attempts to register callables,
good or refused. The calls that were made for it are those for its numbers of passes, and the calls within their
arguments, with their callables, in the same order; and wherever these calls are answered in the same way, they are made
again and the program is bound to the same statements, with the same callables. -/
theorem bind_registerAll {s : Scheduler σ} {program : List Statement} {w w' : World σ}
    {bound : List (Bound.Statement σ Bound.Passes)} (h : s.bind program w = (.ok bound, w'))
    (attempts : List (Kind × Registration σ)) :
    (s.registerAll attempts).2.bind program = s.bind program ∧
      ∃ asked answered,
        (program.flatMap Statement.passesCalls).mapM (Call.bound s.functions s.functions) = .ok asked ∧
        answered.map (·.node) = asked.flatMap Bound.Call.nodes ∧ Bound.Answering w answered w' ∧
        ∀ v v', Bound.Answering v answered v' →
          (s.registerAll attempts).2.bind program v = (.ok bound, v') ∧
            v'.journal = v.journalWith (answered.map fun a => (a.node.callable, a.values)) := by
  obtain ⟨looked, hlooked⟩ := exists_looked_of_bind h
  have hactions : s.actions.Extends (s.registerAll attempts).2.actions := s.extends_registerAll attempts .action
  have hfunctions : s.functions.Extends (s.registerAll attempts).2.functions := s.extends_registerAll attempts .function
  have hbind : s.bind program = looked.mapM Bound.Statement.settle := Statements.bind_of_ok hlooked
  have hlater : (s.registerAll attempts).2.bind program = looked.mapM Bound.Statement.settle :=
    Statements.bind_of_ok (Statements.carries_bound hactions hfunctions program looked hlooked)
  rw [hbind] at h
  obtain ⟨answered, hnodes, hanswered, hagain⟩ := Bound.Statements.replays_settle looked w w' bound h
  refine ⟨hlater.trans hbind.symm, _, answered, mapM_passesCalls hlooked, hnodes, hanswered, fun v v' hv => ⟨?_, ?_⟩⟩
  · rw [hlater]
    exact hagain v v' hv
  · exact hv.journal

namespace Sample

/-- The world with the count two, after `tick()` gave it. -/
def twoTicked : World Nat :=
  ⟨3, #[.called tick []]⟩

/-- `ping()@[1, tick()]:tick()`, bound when `tick` gave two. -/
def tickingAsked : Bound.Statement Nat Bound.Passes :=
  ⟨⟨"ping", ping, []⟩, ⟨[.interval (.ofInt 1), .call tickCall], .times 2⟩, (ticking (.call ⟨"tick", []⟩)).text⟩

theorem bind_tickingAsked : (⟨actions, functions⟩ : Scheduler Nat).bind [ticking (.call ⟨"tick", []⟩)] (.fresh 2)
    = (.ok [tickingAsked], twoTicked) := by
  have hcount : (tickCall.passes (.int 2)).toOption = some 2 := by decide +kernel
  have hpasses : tickCall.passes (.int 2) = .ok 2 := by
    cases h : tickCall.passes (.int 2) with
    | error e =>
      rw [h] at hcount
      cases hcount
    | ok n =>
      rw [h] at hcount
      rw [Option.some.inj hcount]
  have hpasses' : Repeat.bind .asking functions (ticking (.call ⟨"tick", []⟩)).schedule (.call ⟨"tick", []⟩) (.fresh 2)
      = (.ok (.times 2), twoTicked) := by
    have hinvoke : tickCall.invoke (.fresh 2) = (.ok (.int 2), twoTicked) := rfl
    rw [Repeat.bind_of_invoke rfl hinvoke, hpasses]
    rfl
  have hschedule : (ticking (.call ⟨"tick", []⟩)).schedule.bind .asking functions (.fresh 2)
      = (.ok tickingAsked.schedule, twoTicked) :=
    Host.bind_eq_ok_iff.2 ⟨_, _, rfl, Host.bind_eq_ok_iff.2 ⟨_, _, hpasses', rfl⟩⟩
  have hstatement : (ticking (.call ⟨"tick", []⟩)).bind .asking actions functions (.fresh 2)
      = (.ok tickingAsked, twoTicked) :=
    Host.bind_eq_ok_iff.2 ⟨_, _, rfl, Host.bind_eq_ok_iff.2 ⟨_, _, hschedule, rfl⟩⟩
  refine Host.bind_eq_ok_iff.2 ⟨_, _, rfl, ?_⟩
  rw [List.mapM_cons]
  exact Host.bind_eq_ok_iff.2 ⟨_, _, hstatement, rfl⟩

/-- An attempt to register another function as `tick`, and an action of that name. -/
def furtherTicks : List (Kind × Registration Nat) :=
  [(.function, ⟨ping, some "tick"⟩), (.action, ⟨tick, none⟩)]

end Sample

/-- The first of two further attempts is refused, the second one is good, and neither matters. -/
theorem bind_registerAll_tick :
    (⟨Sample.actions, Sample.functions⟩ : Scheduler Nat).bind [Sample.ticking (.call ⟨"tick", []⟩)] (.fresh 2)
        = (.ok [Sample.tickingAsked], Sample.twoTicked) ∧
      (Scheduler.registerAll ⟨Sample.actions, Sample.functions⟩ Sample.furtherTicks).1
        = [.error (.duplicate .function "tick"), .ok ()] ∧
      (Scheduler.registerAll ⟨Sample.actions, Sample.functions⟩ Sample.furtherTicks).2.bind
          [Sample.ticking (.call ⟨"tick", []⟩)] (.fresh 2)
        = (.ok [Sample.tickingAsked], Sample.twoTicked) := by
  obtain ⟨_, _, _, _, _, hanswered, hagain⟩ := bind_registerAll Sample.bind_tickingAsked Sample.furtherTicks
  exact ⟨Sample.bind_tickingAsked, rfl, (hagain _ _ hanswered).1⟩

end Cadence
