import Cadence.Bound.Binding
import Mathlib.Data.List.Forall2

/-!
# Computations that act on the world

How computations on a host are put together and taken apart. The key fact is `Host.bind_apply`: a computation in
two parts runs the second part in the world that the first one leaves, and only if the first one gives a value.
`Makes` says which callables a computation calls, in order, and which errors it can end in; it is closed under
putting computations together (`Makes.bind`).
-/

namespace Cadence

variable {σ : Type} {α β : Type}

/-- A result in two parts is a value exactly if both parts are. -/
theorem result_bind_eq_ok_iff {r : Except Error α} {f : α → Except Error β} {b : β} :
    (r >>= f) = .ok b ↔ ∃ a, r = .ok a ∧ f a = .ok b := by
  constructor
  · intro h
    cases r with
    | error e => cases h
    | ok a => exact ⟨a, rfl, h⟩
  · rintro ⟨a, rfl, h⟩
    exact h

/-- A computation on a state runs its second part on the state that the first one leaves. -/
theorem state_bind_apply {τ : Type} (m : StateM τ α) (f : α → StateM τ β) (s : τ) :
    (m >>= f) s = f (m s).1 (m s).2 :=
  rfl

theorem state_pure_apply {τ : Type} (a : α) (s : τ) : (pure a : StateM τ α) s = (a, s) :=
  rfl

namespace Host

-- what a computation fails with does not matter here
variable {ε : Type}

/-- The second part of a computation runs in the world that the first part leaves, if that gives a value. -/
theorem bind_apply (m : ExceptT ε (StateM (World σ)) α) (f : α → ExceptT ε (StateM (World σ)) β)
    (w : World σ) : (m >>= f) w = match m w with
      | (.ok a, w') => f a w'
      | (.error e, w') => (.error e, w') := by
  show (match m w with | (a, s) => (ExceptT.bindCont f a : StateM (World σ) _) s) = _
  rcases m w with ⟨_ | a, w'⟩ <;> rfl

theorem bind_of_ok {m : ExceptT ε (StateM (World σ)) α} {w w' : World σ} {a : α} (h : m w = (.ok a, w'))
    (f : α → ExceptT ε (StateM (World σ)) β) : (m >>= f) w = f a w' := by
  rw [bind_apply, h]

theorem bind_of_error {m : ExceptT ε (StateM (World σ)) α} {w w' : World σ} {e : ε} (h : m w = (.error e, w'))
    (f : α → ExceptT ε (StateM (World σ)) β) : (m >>= f) w = (.error e, w') := by
  rw [bind_apply, h]

/-- A computation in two parts gives a value exactly if both parts do. -/
theorem bind_eq_ok_iff {m : ExceptT ε (StateM (World σ)) α} {f : α → ExceptT ε (StateM (World σ)) β}
    {w w' : World σ} {b : β} : (m >>= f) w = (.ok b, w') ↔ ∃ a v, m w = (.ok a, v) ∧ f a v = (.ok b, w') := by
  rw [bind_apply]
  rcases m w with ⟨e | a, v⟩
  · constructor
    · intro h
      cases h
    · rintro ⟨_, _, h, _⟩
      cases h
  · constructor
    · intro h
      exact ⟨a, v, rfl, h⟩
    · rintro ⟨_, _, h, h'⟩
      cases h
      exact h'

/-- A computation in two parts fails where its first part fails, or its second. -/
theorem bind_eq_error_iff {m : ExceptT ε (StateM (World σ)) α} {f : α → ExceptT ε (StateM (World σ)) β}
    {w w' : World σ} {e : ε} :
    (m >>= f) w = (.error e, w') ↔ m w = (.error e, w') ∨ ∃ a v, m w = (.ok a, v) ∧ f a v = (.error e, w') := by
  rw [bind_apply]
  rcases m w with ⟨e' | a, v⟩
  · constructor
    · intro h
      cases h
      exact .inl rfl
    · rintro (h | ⟨_, _, h, _⟩)
      · cases h
        rfl
      · cases h
  · constructor
    · intro h
      exact .inr ⟨a, v, rfl, h⟩
    · rintro (h | ⟨_, _, h, h'⟩)
      · cases h
      · cases h
        exact h'

theorem ofResult_eq_ok_iff {r : Except Error α} {w w' : World σ} {a : α} :
    (ofResult r : Host σ α) w = (.ok a, w') ↔ r = .ok a ∧ w' = w := by
  show (r, w) = (.ok a, w') ↔ _
  rw [Prod.mk.injEq, @eq_comm _ w']

/-- Computations that are made one after the other give one value each. -/
theorem forall₂_of_mapM {f : α → Host σ β} {l : List α} {l' : List β} {w w' : World σ}
    (h : (l.mapM f) w = (.ok l', w')) : List.Forall₂ (fun a b => ∃ v v', f a v = (.ok b, v')) l l' := by
  induction l generalizing l' w with
  | nil =>
    cases h
    exact .nil
  | cons a rest ih =>
    rw [List.mapM_cons] at h
    obtain ⟨b, v, hb, h⟩ := bind_eq_ok_iff.1 h
    obtain ⟨rest', v', hrest, h⟩ := bind_eq_ok_iff.1 h
    cases h
    exact .cons ⟨w, v, hb⟩ (ih hrest)

theorem length_of_mapM {f : α → Host σ β} {l : List α} {l' : List β} {w w' : World σ}
    (h : (l.mapM f) w = (.ok l', w')) : l'.length = l.length :=
  (forall₂_of_mapM h).length_eq.symm

/-- Computations that are made one after the other fail with the first of them that fails. -/
theorem mapM_eq_error_iff {f : α → Host σ β} {l : List α} {e : Error} {w w' : World σ} :
    (l.mapM f) w = (.error e, w') ↔ ∃ before a after values v,
      l = before ++ a :: after ∧ (before.mapM f) w = (.ok values, v) ∧ f a v = (.error e, w') := by
  constructor
  · intro h
    induction l generalizing w with
    | nil => cases h
    | cons a rest ih =>
      rw [List.mapM_cons] at h
      rcases bind_eq_error_iff.1 h with h | ⟨b, v, hb, h⟩
      · exact ⟨[], a, rest, [], w, rfl, rfl, h⟩
      · -- this one came to a value, so that the failure is among the others
        rcases bind_eq_error_iff.1 h with h | ⟨_, _, _, h⟩
        · obtain ⟨before, a', after, values, u, rfl, hbefore, ha'⟩ := ih h
          refine ⟨a :: before, a', after, b :: values, u, rfl, ?_, ha'⟩
          rw [List.mapM_cons, bind_of_ok hb, bind_of_ok hbefore]
          rfl
        · cases h
  · rintro ⟨before, a, after, values, v, rfl, hbefore, ha⟩
    rw [List.mapM_append, bind_of_ok hbefore, List.mapM_cons, bind_of_error (bind_of_error ha _)]

end Host

/-! ## Calls made -/

abbrev Made (σ : Type) := Callable σ × List Value

/-- A world with further calls in its journal. -/
def World.journalWith (w : World σ) (made : List (Made σ)) : Array (Event σ) :=
  w.journal ++ (made.map fun m => Event.called m.1 m.2).toArray

/-- Calls that were made one after the other stand in the journal one after the other. -/
theorem World.journalWith_append {w v u : World σ} {made more : List (Made σ)} (h : v.journal = w.journalWith made)
    (h' : u.journal = v.journalWith more) : u.journal = w.journalWith (made ++ more) := by
  rw [h']
  simp only [World.journalWith] at h ⊢
  rw [h]
  simp

/-- The errors that a call can end in: a callable fails or breaks down, or its value does not fit its place. -/
def Error.OfCall : Error → Prop
  | .callFailed _ _ | .crashed | .notAnInterval _ _ | .invalidPasses _ _ => True
  | _ => False

/-- A computation calls some callables in order, each once, and nothing else happens. If it fails, it does so after
some of the calls, with the error of one. -/
def Makes (callees : List (Callable σ)) (m : Host σ α) : Prop :=
  ∀ w, ∃ made : List (Made σ),
    (m w).2.journal = w.journalWith made ∧ made.map (·.1) <+: callees ∧
      (∀ a, (m w).1 = .ok a → made.map (·.1) = callees) ∧ ∀ e, (m w).1 = .error e → e.OfCall

namespace Makes

theorem journalWith_nil (w : World σ) : w.journalWith [] = w.journal := by
  simp [World.journalWith]

theorem pure (a : α) : Makes [] (pure a : Host σ α) := by
  intro w
  refine ⟨[], (journalWith_nil w).symm, List.nil_prefix, fun _ _ => rfl, ?_⟩
  intro e h
  cases h

theorem ofResult {r : Except Error α} (h : ∀ e, r = .error e → e.OfCall) :
    Makes [] (Host.ofResult r : Host σ α) := by
  intro w
  exact ⟨[], (journalWith_nil w).symm, List.nil_prefix, fun _ _ => rfl, h⟩

/-- What the two parts of a computation call stands in the journal one after the other. -/
theorem bind {callees others : List (Callable σ)} {m : Host σ α} {f : α → Host σ β} (hm : Makes callees m)
    (hf : ∀ a, Makes others (f a)) : Makes (callees ++ others) (m >>= f) := by
  intro w
  obtain ⟨made, hj, hp, hok, herr⟩ := hm w
  rcases hmw : m w with ⟨e | a, w'⟩ <;> rw [hmw] at hj hok herr
  · rw [Host.bind_of_error hmw]
    refine ⟨made, hj, hp.trans (List.prefix_append _ _), ?_, ?_⟩
    · intro b h
      cases h
    · intro e' h
      cases h
      exact herr e rfl
  · rw [Host.bind_of_ok hmw]
    obtain ⟨made', hj', hp', hok', herr'⟩ := hf a w'
    have hmade : made.map (·.1) = callees := hok a rfl
    refine ⟨made ++ made', ?_, ?_, ?_, herr'⟩
    · exact World.journalWith_append hj hj'
    · rw [List.map_append, hmade]
      exact (List.prefix_append_right_inj callees).2 hp'
    · intro b hb
      rw [List.map_append, hmade, hok' b hb]

theorem map {callees : List (Callable σ)} {m : Host σ α} (hm : Makes callees m) (f : α → β) :
    Makes callees (m >>= fun a => (Pure.pure (f a) : Host σ β)) := by
  have := hm.bind fun a => Makes.pure (σ := σ) (f a)
  rwa [List.append_nil] at this

theorem call (c : Callable σ) (name : String) (arguments : List Value) : Makes [c] (c.call name arguments) := by
  intro w
  rcases h : c.act arguments w.state with ⟨outcome, s⟩
  refine ⟨[(c, arguments)], ?_, List.prefix_refl _, fun _ _ => rfl, ?_⟩
  · simp only [Callable.call, World.call, World.journalWith, h]
    cases outcome <;> simp
  · simp only [Callable.call, World.call, h]
    cases outcome <;> rintro e ⟨⟩ <;> trivial

end Makes

/-! ## A host to look at

Its state is a count. `Sample.ticking` is a statement over it. -/

namespace Sample

/-- Leaves the count alone. -/
def ping : Callable Nat :=
  ⟨"ping", .positional [], fun _ n => (.returned .null, n)⟩

/-- Gives the count, and adds one to it. -/
def tick : Callable Nat :=
  ⟨"tick", .positional [], fun _ n => (.returned (.int (Int64.ofNat n)), n + 1)⟩

def actions : Registry Nat :=
  ⟨.action, [("ping", ping)]⟩

def functions : Registry Nat :=
  ⟨.function, [("tick", tick)]⟩

/-- `ping()@[1, tick()]` with some number of passes. -/
def ticking (passes : Repeat) : Statement :=
  ⟨⟨"ping", []⟩, ⟨[.interval (.int 1), .call ⟨"tick", []⟩], passes⟩⟩

/-- The call `tick()`, bound. -/
def tickCall : Bound.Call Nat :=
  ⟨"tick", tick, []⟩

/-- `ping()@[1, tick()]:2`, bound. -/
def tickingTwice : Bound.Statement Nat Bound.Passes :=
  ⟨⟨"ping", ping, []⟩, ⟨[.interval (.ofInt 1), .call tickCall], .times 2⟩, (ticking (.times 2)).text⟩

end Sample

end Cadence
