import Cadence.Proofs.Bound.Asking

/-!
# What is checked before anything is called

The sites of a program are its parts that can be at fault in themselves: calls, whose names must be registered and
whose numbers of arguments must be accepted, and written numbers of passes, which must not be zero. They are listed in
one order (`Statement.sites`): a call before its arguments, keys before their values, the items of a schedule before
its passes. Looking up a program fails exactly if a site is at fault, with the fault of the first such site
(`failure?_mapM_bound`), and everything that can fail afterwards is of another kind, so that a program at fault is
refused without any call.
-/

namespace Cadence

variable {σ α β : Type}

/-! ## Sites -/

/-- A part of a program that can be at fault in itself. -/
inductive Site
  /-- A call, to be found among the callables of a kind. -/
  | call (kind : Kind) (call : Call)
  /-- The written number of passes of a schedule. -/
  | passes (count : UInt64) (schedule : Schedule)

mutual

def Argument.sites : Argument → List Site
  | .literal _ => []
  | .list items => Arguments.sites items
  | .map entries => Entries.sites entries
  | .call name arguments => .call .function ⟨name, arguments⟩ :: Arguments.sites arguments
termination_by structural a => a

def Arguments.sites : List Argument → List Site
  | [] => []
  | a :: rest => a.sites ++ Arguments.sites rest
termination_by structural a => a

/-- The sites of the entries of a map, those of a key before those of its value. -/
def Entries.sites : Entries → List Site
  | [] => []
  | (k, v) :: rest => k.sites ++ (v.sites ++ Entries.sites rest)
termination_by structural a => a

end

/-- The sites of a call of some kind: the call itself, and then those of its arguments. -/
def Call.sites (kind : Kind) (c : Call) : List Site :=
  .call kind c :: Arguments.sites c.arguments

/-- The sites of the passes of a schedule. -/
def Repeat.sites (schedule : Schedule) : Repeat → List Site
  | .times n => [.passes n schedule]
  | .forever => []
  | .call c => c.sites .function

mutual

def Item.sites : Item → List Site
  | .interval _ => []
  | .call c => c.sites .function
  | .schedule items passes => Items.sites items ++ passes.sites ⟨items, passes⟩
termination_by structural a => a

def Items.sites : List Item → List Site
  | [] => []
  | a :: rest => a.sites ++ Items.sites rest
termination_by structural a => a

end

/-- The sites of a statement: those of its action, and then those of its schedule. -/
def Statement.sites (s : Statement) : List Site :=
  s.action.sites .action ++ s.schedule.toItem.sites

/-! ## Faults -/

def registryOf (actions functions : Registry σ) : Kind → Registry σ
  | .action => actions
  | .function => functions

/-- What is wrong at a site: the name of a call is not registered, its number of arguments is not accepted, or a
schedule is to be gone through no times. -/
def Site.fault? (actions functions : Registry σ) : Site → Option Error
  | .call kind c =>
    match (registryOf actions functions kind).get? c.name with
    | none => some (.unregistered kind c.name)
    | some callable =>
      if callable.signature.accepts c.arguments.length then none
      else some (.argumentMismatch kind c.name callable.signature c.arguments)
  | .passes n schedule => if n = 0 then some (.zeroPasses schedule) else none

/-- What is wrong at the first site at fault. -/
def firstFault (actions functions : Registry σ) (sites : List Site) : Option Error :=
  sites.findSome? (Site.fault? actions functions)

/-- The errors that are faults of sites. -/
def Error.IsStructural : Error → Prop
  | .unregistered _ _ | .argumentMismatch _ _ _ _ | .zeroPasses _ => True
  | _ => False

theorem Site.isStructural_of_fault? {actions functions : Registry σ} {site : Site} {e : Error}
    (h : site.fault? actions functions = some e) : e.IsStructural := by
  cases site with
  | call kind c =>
    simp only [Site.fault?] at h
    cases hget : (registryOf actions functions kind).get? c.name with
    | none =>
      rw [hget] at h
      cases h
      trivial
    | some callable =>
      simp only [hget] at h
      split at h
      · cases h
      · cases h
        trivial
  | passes n schedule =>
    simp only [Site.fault?] at h
    split at h
    · cases h
      trivial
    · cases h

theorem firstFault_append (actions functions : Registry σ) (l l' : List Site) :
    firstFault actions functions (l ++ l') = (firstFault actions functions l).or (firstFault actions functions l') :=
  List.findSome?_append

theorem firstFault_cons (actions functions : Registry σ) (site : Site) (l : List Site) :
    firstFault actions functions (site :: l) = (site.fault? actions functions).or (firstFault actions functions l) := by
  rw [firstFault, List.findSome?_cons]
  cases site.fault? actions functions <;> rfl

/-! ## Looking up -/

/-- The error of a result, if it is one. -/
def failure? : Except Error α → Option Error
  | .ok _ => none
  | .error e => some e

/-- What fails first in a result in two parts, the second of which fails in one way whatever the first one gives. -/
theorem failure?_bind {r : Except Error α} {f : α → Except Error β} {e? : Option Error}
    (h : ∀ a, failure? (f a) = e?) : failure? (r >>= f) = (failure? r).or e? := by
  cases r with
  | error e => rfl
  | ok a => exact h a

theorem failure?_map (r : Except Error α) (f : α → β) : failure? (r >>= fun a => pure (f a)) = failure? r := by
  cases r <;> rfl

theorem failure?_find {actions functions : Registry σ} (kind : Kind)
    (hkind : (registryOf actions functions kind).kind = kind) (c : Call) :
    failure? ((registryOf actions functions kind).find c.name c.arguments)
      = (Site.call kind c).fault? actions functions := by
  simp only [Registry.find, Site.fault?, hkind]
  cases (registryOf actions functions kind).get? c.name with
  | none => rfl
  | some callable =>
    dsimp only
    split <;> rfl

section Bound

variable {actions functions : Registry σ}

mutual

theorem Argument.failure?_bound (hf : functions.kind = .function) : ∀ a : Argument,
    failure? (a.bound functions) = firstFault actions functions a.sites
  | .literal _ => rfl
  | .list items => by
    rw [Argument.bound, failure?_map]
    exact Arguments.failure?_bound hf items
  | .map entries => by
    rw [Argument.bound, failure?_map]
    exact Entries.failure?_bound hf entries
  | .call name arguments => by
    rw [Argument.bound, Argument.sites, firstFault_cons, ← Arguments.failure?_bound hf arguments,
      ← failure?_find .function hf]
    exact failure?_bind fun _ => failure?_map _ _

theorem Arguments.failure?_bound (hf : functions.kind = .function) : ∀ arguments : List Argument,
    failure? (Arguments.bound functions arguments) = firstFault actions functions (Arguments.sites arguments)
  | [] => rfl
  | a :: rest => by
    rw [Arguments.bound, Arguments.sites, firstFault_append, ← Argument.failure?_bound hf a,
      ← Arguments.failure?_bound hf rest]
    exact failure?_bind fun _ => failure?_map _ _

theorem Entries.failure?_bound (hf : functions.kind = .function) : ∀ entries : Entries,
    failure? (Entries.bound functions entries) = firstFault actions functions (Entries.sites entries)
  | [] => rfl
  | (k, v) :: rest => by
    rw [Entries.bound, Entries.sites, firstFault_append, firstFault_append, ← Argument.failure?_bound hf k,
      ← Argument.failure?_bound hf v, ← Entries.failure?_bound hf rest]
    exact failure?_bind fun _ => failure?_bind fun _ => failure?_map _ _

end

theorem Call.failure?_bound (hf : functions.kind = .function) (kind : Kind)
    (hkind : (registryOf actions functions kind).kind = kind) (c : Call) :
    failure? (c.bound (registryOf actions functions kind) functions)
      = firstFault actions functions (c.sites kind) := by
  rw [Call.bound, Call.sites, firstFault_cons, ← Arguments.failure?_bound hf c.arguments, ← failure?_find kind hkind]
  exact failure?_bind fun _ => failure?_map _ _

theorem Repeat.failure?_bound (hf : functions.kind = .function) (schedule : Schedule) (passes : Repeat) :
    failure? (passes.bound functions schedule) = firstFault actions functions (passes.sites schedule) := by
  cases passes with
  | times n =>
    rw [Repeat.bound, Repeat.sites, firstFault_cons, Site.fault?]
    split <;> rfl
  | forever => rfl
  | call c =>
    rw [Repeat.bound, failure?_map]
    exact Call.failure?_bound hf .function hf c

mutual

theorem Item.failure?_bound (hf : functions.kind = .function) : ∀ a : Item,
    failure? (a.bound functions) = firstFault actions functions a.sites
  | .interval _ => rfl
  | .call c => by
    rw [Item.bound, failure?_map]
    exact Call.failure?_bound hf .function hf c
  | .schedule items passes => by
    rw [Item.bound, Item.sites, firstFault_append, ← Items.failure?_bound hf items,
      ← Repeat.failure?_bound hf ⟨items, passes⟩ passes]
    exact failure?_bind fun _ => failure?_map _ _

theorem Items.failure?_bound (hf : functions.kind = .function) : ∀ items : List Item,
    failure? (Items.bound functions items) = firstFault actions functions (Items.sites items)
  | [] => rfl
  | a :: rest => by
    rw [Items.bound, Items.sites, firstFault_append, ← Item.failure?_bound hf a, ← Items.failure?_bound hf rest]
    exact failure?_bind fun _ => failure?_map _ _

end

theorem Schedule.failure?_bound (hf : functions.kind = .function) (s : Schedule) :
    failure? (s.bound functions) = firstFault actions functions s.toItem.sites := by
  rw [Schedule.bound, Schedule.toItem, Item.sites, firstFault_append, ← Items.failure?_bound hf s.items,
    ← Repeat.failure?_bound hf s s.passes]
  exact failure?_bind fun _ => failure?_map _ _

theorem Statement.failure?_bound (ha : actions.kind = .action) (hf : functions.kind = .function) (s : Statement) :
    failure? (s.bound actions functions) = firstFault actions functions s.sites := by
  rw [Statement.bound, Statement.sites, firstFault_append, ← Call.failure?_bound hf .action ha s.action,
    ← Schedule.failure?_bound hf s.schedule]
  exact failure?_bind fun _ => failure?_map _ _

/-- Looking up a program fails with the fault of its first site at fault, if there is one. -/
theorem failure?_mapM_bound (ha : actions.kind = .action) (hf : functions.kind = .function)
    (program : List Statement) :
    failure? (program.mapM (Statement.bound actions functions))
      = firstFault actions functions (program.flatMap Statement.sites) := by
  induction program with
  | nil => rfl
  | cons s rest ih =>
    rw [List.mapM_cons, List.flatMap_cons, firstFault_append, ← ih, ← Statement.failure?_bound ha hf s]
    exact failure?_bind fun _ => failure?_map _ _

end Bound

/-! ## Refusing a program -/

theorem failure?_eq_some_iff {r : Except Error α} {e : Error} : failure? r = some e ↔ r = .error e := by
  cases r with
  | error e' =>
    constructor <;> rintro ⟨⟩ <;> rfl
  | ok a =>
    constructor <;> rintro ⟨⟩

theorem firstFault_isSome_iff {actions functions : Registry σ} {sites : List Site} :
    (∃ e, firstFault actions functions sites = some e) ↔
      ∃ site ∈ sites, (site.fault? actions functions).isSome := by
  rw [← Option.isSome_iff_exists, firstFault, List.isSome_findSome?, List.any_eq_true]

theorem isStructural_of_firstFault {actions functions : Registry σ} {sites : List Site} {e : Error}
    (h : firstFault actions functions sites = some e) : e.IsStructural := by
  obtain ⟨site, _, hsite⟩ := List.exists_of_findSome?_eq_some h
  exact Site.isStructural_of_fault? hsite

/-- What can go wrong with a call that is made is no fault of a site. -/
theorem Error.OfCall.not_isStructural {e : Error} (h : e.OfCall) : ¬e.IsStructural := by
  cases e <;> first | exact h.elim | exact id

section Refused

variable {actions functions : Registry σ} {program : List Statement}

/-- A program at fault is refused with the first fault, and nothing is called. -/
theorem bind_of_firstFault (ha : actions.kind = .action) (hf : functions.kind = .function) {e : Error}
    (h : firstFault actions functions (program.flatMap Statement.sites) = some e) (w : World σ) :
    Statements.bind actions functions program w = (.error e, w) := by
  rw [← failure?_mapM_bound ha hf, failure?_eq_some_iff] at h
  exact Statements.bind_of_error h w

/-- A program without fault is looked up, and all that is left is to settle it. -/
theorem exists_looked_of_firstFault (ha : actions.kind = .action) (hf : functions.kind = .function)
    (h : firstFault actions functions (program.flatMap Statement.sites) = none) :
    ∃ looked, program.mapM (Statement.bound actions functions) = .ok looked ∧
      Statements.bind actions functions program = looked.mapM Bound.Statement.settle := by
  rw [← failure?_mapM_bound ha hf] at h
  cases hlooked : program.mapM (Statement.bound actions functions) with
  | error e =>
    rw [hlooked] at h
    cases h
  | ok looked => exact ⟨looked, rfl, Statements.bind_of_ok hlooked⟩

/-- Binding a program ends in the error of a fault exactly if there is a site at fault; it is then the fault of the
first one, and no callable was called, whatever calls for numbers of passes stand before it. -/
theorem bind_eq_error_iff_firstFault (ha : actions.kind = .action) (hf : functions.kind = .function)
    (program : List Statement) (w : World σ) :
    (∀ e, e.IsStructural → ((Statements.bind actions functions program w).1 = .error e ↔
        firstFault actions functions (program.flatMap Statement.sites) = some e)) ∧
      ((∃ e, e.IsStructural ∧ (Statements.bind actions functions program w).1 = .error e) ↔
        ∃ site ∈ program.flatMap Statement.sites, (site.fault? actions functions).isSome) ∧
      ((∃ site ∈ program.flatMap Statement.sites, (site.fault? actions functions).isSome) →
        (Statements.bind actions functions program w).2 = w) := by
  have hfirst : ∀ e, e.IsStructural → ((Statements.bind actions functions program w).1 = .error e ↔
      firstFault actions functions (program.flatMap Statement.sites) = some e) := by
    intro e he
    constructor
    · intro h
      cases hfault : firstFault actions functions (program.flatMap Statement.sites) with
      | some e' =>
        rw [bind_of_firstFault ha hf hfault w] at h
        cases h
        rfl
      | none =>
        -- only the calls for numbers of passes can fail now
        obtain ⟨looked, _, hbind⟩ := exists_looked_of_firstFault ha hf hfault
        rw [hbind] at h
        obtain ⟨_, _, _, _, hcall⟩ := (Bound.Statements.asks looked).makes w
        exact absurd he (hcall e h).not_isStructural
    · intro h
      rw [bind_of_firstFault ha hf h w]
  refine ⟨hfirst, ?_, ?_⟩
  · rw [← firstFault_isSome_iff]
    constructor
    · rintro ⟨e, he, h⟩
      exact ⟨e, (hfirst e he).1 h⟩
    · rintro ⟨e, h⟩
      exact ⟨e, isStructural_of_firstFault h, (hfirst e (isStructural_of_firstFault h)).2 h⟩
  · rw [← firstFault_isSome_iff]
    rintro ⟨e, h⟩
    rw [bind_of_firstFault ha hf h w]

theorem bind_eq_error_iff_firstFault_tock :
    Sample.actions.kind = .action ∧ Sample.functions.kind = .function ∧
      (Error.unregistered .function "tock").IsStructural ∧
      (Statements.bind Sample.actions Sample.functions
        [Sample.ticking (.call ⟨"tick", []⟩), Sample.ticking (.call ⟨"tock", []⟩)] (.fresh 0)).1
          = .error (.unregistered .function "tock") := by
  have hactions : Sample.actions.kind = .action := rfl
  have hfunctions : Sample.functions.kind = .function := rfl
  have hfirst := (bind_eq_error_iff_firstFault hactions hfunctions
    [Sample.ticking (.call ⟨"tick", []⟩), Sample.ticking (.call ⟨"tock", []⟩)] (.fresh 0)).1
  exact ⟨hactions, hfunctions, trivial, (hfirst (.unregistered .function "tock") trivial).2 rfl⟩

end Refused

end Cadence
