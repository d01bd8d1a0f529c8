import Cadence.Scheduler
import Mathlib.Data.List.Basic

/-!
# Registrations one after another

A name stays with the first callable that was registered under it. After any attempts a registry holds what it held
before, and behind it the further names in the order in which they were first tried (`Registry.names_registerAll`), each
with the callable of the first attempt under it (`Registry.get?_registerAll`). An attempt is refused exactly if its name
is taken (`Registry.mem_names_registerAll`). A scheduler keeps the two kinds of callables apart: what happens to one kind
does not depend on the attempts for the other (`Scheduler.registerAll_ofKind`).
-/

namespace Cadence

/-! ## Attempts -/

section Attempts

variable {α τ : Type}

/-- What an attempt on a state comes to, and the state that it leaves. If it is refused, this is the state as it was. -/
def attempted (t : τ) : Except Error τ → Except Error Unit × τ
  | .ok t' => (.ok (), t')
  | .error e => (.error e, t)

/-- Attempts one after another: what each of them comes to, and the state that the last one leaves. -/
def attemptAll (attempt : τ → α → Except Error τ) (t : τ) : List α → List (Except Error Unit) × τ
  | [] => ([], t)
  | a :: rest =>
    let (result, t') := attempted t (attempt t a)
    let (results, last) := attemptAll attempt t' rest
    (result :: results, last)

variable (attempt : τ → α → Except Error τ) (t : τ) (attempts : List α)

theorem length_attemptAll : (attemptAll attempt t attempts).1.length = attempts.length := by
  induction attempts generalizing t with
  | nil => rfl
  | cons a rest ih => simp [attemptAll, ih]

/-- What an attempt comes to is found out on the state that those before it left. -/
theorem getElem?_attemptAll (k : Nat) :
    (attemptAll attempt t attempts).1[k]? = attempts[k]?.map fun a =>
      (attempted (attemptAll attempt t (attempts.take k)).2
        (attempt (attemptAll attempt t (attempts.take k)).2 a)).1 := by
  induction attempts generalizing t k with
  | nil => simp [attemptAll]
  | cons a rest ih =>
    cases k with
    | zero => simp [attemptAll]
    | succ k => simpa [attemptAll] using ih _ k

/-- With one more attempt, the state is what that attempt leaves. -/
theorem attemptAll_take_succ {k : Nat} {a : α} (h : attempts[k]? = some a) :
    (attemptAll attempt t (attempts.take (k + 1))).2 =
      (attempted (attemptAll attempt t (attempts.take k)).2
        (attempt (attemptAll attempt t (attempts.take k)).2 a)).2 := by
  induction attempts generalizing t k with
  | nil => simp at h
  | cons b rest ih =>
    cases k with
    | zero =>
      obtain rfl : b = a := by simpa using h
      simp [attemptAll]
    | succ k => simpa [attemptAll] using ih _ (by simpa using h)

/-- What attempts come to does not depend on those behind them. -/
theorem getElem?_attemptAll_take {j k : Nat} (h : j < k) :
    (attemptAll attempt t (attempts.take k)).1[j]? = (attemptAll attempt t attempts).1[j]? := by
  have htake : (attempts.take k).take j = attempts.take j := by
    rw [List.take_take, Nat.min_eq_left (Nat.le_of_lt h)]
  rw [getElem?_attemptAll, getElem?_attemptAll, htake, List.getElem?_take_of_lt h]

end Attempts

variable {σ : Type}

/-- An attempt to register a callable, under an alias or under its own name. -/
structure Registration (σ : Type) where
  callable : Callable σ
  alias? : Option String

/-- The name that a callable is to be registered under. -/
def Registration.name (a : Registration σ) : String :=
  a.alias?.getD a.callable.name

/-! ## Registries -/

namespace Registry

/-- Attempts to register callables, one after another. -/
def registerAll (r : Registry σ) (attempts : List (Registration σ)) : List (Except Error Unit) × Registry σ :=
  attemptAll (fun r a => r.register a.callable a.alias?) r attempts

/-- A registry with a further entry. -/
def withEntry (r : Registry σ) (name : String) (c : Callable σ) : Registry σ :=
  { r with entries := r.entries ++ [(name, c)] }

theorem register_of_mem {r : Registry σ} {a : Registration σ} (h : a.name ∈ r.names) :
    r.register a.callable a.alias? = .error (.duplicate r.kind a.name) :=
  if_pos ((contains_iff_mem_names r _).2 h)

theorem register_of_notMem {r : Registry σ} {a : Registration σ} (h : a.name ∉ r.names) :
    r.register a.callable a.alias? = .ok (r.withEntry a.name a.callable) :=
  if_neg fun hcontains => h ((contains_iff_mem_names r _).1 hcontains)

theorem names_withEntry (r : Registry σ) (name : String) (c : Callable σ) :
    (r.withEntry name c).names = r.names ++ [name] := by
  simp [names, withEntry]

theorem get?_eq_none_iff {r : Registry σ} {name : String} : r.get? name = none ↔ name ∉ r.names := by
  rw [get?, names, List.lookup_eq_none_iff]
  constructor
  · intro h hmem
    obtain ⟨entry, hentry, rfl⟩ := List.mem_map.1 hmem
    simpa using h entry hentry
  · intro h entry hentry
    rw [bne_iff_ne]
    rintro rfl
    exact h (List.mem_map_of_mem hentry)

theorem get?_withEntry (r : Registry σ) (name other : String) (c : Callable σ) :
    (r.withEntry name c).get? other = (r.get? other).or (if other = name then some c else none) := by
  rw [get?, withEntry, List.lookup_append]
  by_cases h : other = name
  · simp [h, get?]
  · have hbeq : (other == name) = false := beq_false_of_ne h
    simp [h, get?, List.lookup_cons, hbeq]

section Runs

variable (r : Registry σ)

theorem registerAll_cons_of_mem {a : Registration σ} (h : a.name ∈ r.names) (rest : List (Registration σ)) :
    r.registerAll (a :: rest)
      = (.error (.duplicate r.kind a.name) :: (r.registerAll rest).1, (r.registerAll rest).2) := by
  simp only [registerAll, attemptAll, register_of_mem h, attempted]

theorem registerAll_cons_of_notMem {a : Registration σ} (h : a.name ∉ r.names) (rest : List (Registration σ)) :
    r.registerAll (a :: rest) = (.ok () :: ((r.withEntry a.name a.callable).registerAll rest).1,
      ((r.withEntry a.name a.callable).registerAll rest).2) := by
  simp only [registerAll, attemptAll, register_of_notMem h, attempted]

theorem kind_registerAll (attempts : List (Registration σ)) : (r.registerAll attempts).2.kind = r.kind := by
  induction attempts generalizing r with
  | nil => rfl
  | cons a rest ih =>
    by_cases h : a.name ∈ r.names
    · rw [registerAll_cons_of_mem r h, ih]
    · rw [registerAll_cons_of_notMem r h, ih, withEntry]

/-- The names stay in their order, and the further ones follow in the order in which they were first tried. -/
theorem names_registerAll (attempts : List (Registration σ)) :
    (r.registerAll attempts).2.names =
      r.names ++ ((attempts.map Registration.name).filter (· ∉ r.names)).eraseDups := by
  induction attempts generalizing r with
  | nil => simp [registerAll, attemptAll]
  | cons a rest ih =>
    by_cases h : a.name ∈ r.names
    · rw [registerAll_cons_of_mem r h, ih]
      simp [h]
    · have hfurther : ((rest.map Registration.name).filter (· ∉ (r.withEntry a.name a.callable).names)) =
          ((rest.map Registration.name).filter (· ∉ r.names)).filter fun name => !name == a.name := by
        rw [List.filter_filter, names_withEntry]
        refine List.filter_congr fun name _ => ?_
        by_cases hname : name = a.name <;> simp [hname]
      rw [registerAll_cons_of_notMem r h, ih, hfurther, names_withEntry, List.map_cons,
        List.filter_cons_of_pos (by simpa using h), List.eraseDups_cons, List.append_assoc]
      rfl

/-- Under a name stands what stood there before, or else the callable of the first attempt under it. -/
theorem get?_registerAll (attempts : List (Registration σ)) (name : String) :
    (r.registerAll attempts).2.get? name =
      (r.get? name).or ((attempts.find? fun a => a.name = name).map (·.callable)) := by
  induction attempts generalizing r with
  | nil => simp [registerAll, attemptAll]
  | cons a rest ih =>
    by_cases h : a.name ∈ r.names
    · rw [registerAll_cons_of_mem r h, ih]
      by_cases hname : a.name = name
      · -- the name was there before, so that no attempt under it matters
        obtain ⟨c, hc⟩ := Option.ne_none_iff_exists'.1 fun hnone => get?_eq_none_iff.1 hnone (hname ▸ h)
        simp [hc]
      · simp [hname]
    · rw [registerAll_cons_of_notMem r h, ih, get?_withEntry, Option.or_assoc]
      by_cases hname : a.name = name
      · simp [hname]
      · simp [hname, Ne.symm hname]

/-- A registry has a name after some attempts if it had it before, or a good attempt took it. -/
theorem mem_names_registerAll (attempts : List (Registration σ)) (name : String) :
    name ∈ (r.registerAll attempts).2.names ↔ name ∈ r.names ∨
      ∃ (j : Nat) (a : Registration σ), attempts[j]? = some a ∧ (r.registerAll attempts).1[j]? = some (.ok ()) ∧
        a.name = name := by
  induction attempts generalizing r with
  | nil => simp [registerAll, attemptAll]
  | cons a rest ih =>
    by_cases h : a.name ∈ r.names
    · rw [registerAll_cons_of_mem r h, ih]
      refine or_congr_right ?_
      constructor
      · rintro ⟨j, b, hb⟩
        exact ⟨j + 1, b, hb⟩
      · rintro ⟨_ | j, b, hb, hgood, hname⟩
        · simp at hgood
        · exact ⟨j, b, hb, hgood, hname⟩
    · rw [registerAll_cons_of_notMem r h, ih, names_withEntry, List.mem_append, List.mem_singleton, or_assoc]
      refine or_congr_right ?_
      constructor
      · rintro (rfl | ⟨j, b, hb⟩)
        · exact ⟨0, a, rfl, rfl, rfl⟩
        · exact ⟨j + 1, b, hb⟩
      · rintro ⟨_ | j, b, hb, hgood, hname⟩
        · obtain rfl : a = b := by simpa using hb
          exact .inl hname.symm
        · exact .inr ⟨j, b, hb, hgood, hname⟩

end Runs

/-- A name is taken when the attempt at a place is made: the registry had it, or an earlier attempt under it was
good. -/
def Taken (r : Registry σ) (attempts : List (Registration σ)) (k : Nat) (name : String) : Prop :=
  name ∈ r.names ∨ ∃ j < k, ∃ a : Registration σ, attempts[j]? = some a ∧
    (r.registerAll attempts).1[j]? = some (.ok ()) ∧ a.name = name

theorem taken_iff (r : Registry σ) (attempts : List (Registration σ)) (k : Nat) (name : String) :
    r.Taken attempts k name ↔ name ∈ (r.registerAll (attempts.take k)).2.names := by
  rw [mem_names_registerAll, Taken]
  refine or_congr_right ?_
  constructor
  · rintro ⟨j, hj, a, ha, hgood, hname⟩
    refine ⟨j, a, ?_, ?_, hname⟩
    · rw [List.getElem?_take_of_lt hj, ha]
    · exact (getElem?_attemptAll_take _ r attempts hj).trans hgood
  · rintro ⟨j, a, ha, hgood, hname⟩
    have hj : j < k := by
      by_contra hle
      rw [List.getElem?_take_eq_none (Nat.le_of_not_lt hle)] at ha
      cases ha
    refine ⟨j, hj, a, ?_, ?_, hname⟩
    · rw [← List.getElem?_take_of_lt hj, ha]
    · exact (getElem?_attemptAll_take _ r attempts hj).symm.trans hgood

/-- In a row of attempts, the first under a name wins. All others are refused, and leave the registry as it was. -/
structure FirstWins (r : Registry σ) (attempts : List (Registration σ)) : Prop where
  length : (r.registerAll attempts).1.length = attempts.length
  refused : ∀ k a, attempts[k]? = some a → r.Taken attempts k a.name →
    (r.registerAll attempts).1[k]? = some (.error (.duplicate r.kind a.name)) ∧
      (r.registerAll (attempts.take (k + 1))).2 = (r.registerAll (attempts.take k)).2
  accepted : ∀ k a, attempts[k]? = some a → ¬ r.Taken attempts k a.name →
    (r.registerAll attempts).1[k]? = some (.ok ()) ∧
      (r.registerAll (attempts.take (k + 1))).2 = (r.registerAll (attempts.take k)).2.withEntry a.name a.callable
  kind : (r.registerAll attempts).2.kind = r.kind
  names : (r.registerAll attempts).2.names =
    r.names ++ ((attempts.map Registration.name).filter (· ∉ r.names)).eraseDups
  size : (r.registerAll attempts).2.size = (r.registerAll attempts).2.names.length
  contains : ∀ name, (r.registerAll attempts).2.contains name = true ↔ name ∈ (r.registerAll attempts).2.names
  found : ∀ name, ((r.registerAll attempts).2.get? name).isSome = true ↔ name ∈ (r.registerAll attempts).2.names
  get? : ∀ name, (r.registerAll attempts).2.get? name =
    (r.get? name).or ((attempts.find? fun a => a.name = name).map (·.callable))

theorem firstWins (r : Registry σ) (attempts : List (Registration σ)) : r.FirstWins attempts where
  length := length_attemptAll _ r attempts
  refused := by
    intro k a ha htaken
    have hrefused := register_of_mem ((taken_iff r attempts k a.name).1 htaken)
    rw [kind_registerAll] at hrefused
    have hresult := getElem?_attemptAll (fun r a => r.register a.callable a.alias?) r attempts k
    have hstate := attemptAll_take_succ (fun r a => r.register a.callable a.alias?) r attempts ha
    rw [ha] at hresult
    unfold registerAll at hrefused ⊢
    simp only [hrefused, attempted, Option.map_some] at hresult hstate
    exact ⟨hresult, hstate⟩
  accepted := by
    intro k a ha hfree
    have haccepted := register_of_notMem fun hmem => hfree ((taken_iff r attempts k a.name).2 hmem)
    have hresult := getElem?_attemptAll (fun r a => r.register a.callable a.alias?) r attempts k
    have hstate := attemptAll_take_succ (fun r a => r.register a.callable a.alias?) r attempts ha
    rw [ha] at hresult
    unfold registerAll at haccepted ⊢
    simp only [haccepted, attempted, Option.map_some] at hresult hstate
    exact ⟨hresult, hstate⟩
  kind := kind_registerAll r attempts
  names := names_registerAll r attempts
  size := (List.length_map _).symm
  contains := contains_iff_mem_names _
  found name := by
    rw [Option.isSome_iff_ne_none, ne_eq, get?_eq_none_iff, not_not]
  get? := get?_registerAll r attempts

end Registry

/-! ## Schedulers -/

/-- Of some things for both kinds, those for one kind. -/
def ofKind {β : Type} (kind : Kind) (l : List (Kind × β)) : List β :=
  (l.filter fun entry => entry.1 = kind).map Prod.snd

theorem ofKind_cons_self {β : Type} (kind : Kind) (b : β) (l : List (Kind × β)) :
    ofKind kind ((kind, b) :: l) = b :: ofKind kind l := by
  simp [ofKind]

theorem ofKind_cons_of_ne {β : Type} {kind other : Kind} (h : other ≠ kind) (b : β) (l : List (Kind × β)) :
    ofKind kind ((other, b) :: l) = ofKind kind l := by
  simp [ofKind, h]

namespace Scheduler

/-- The registry for a kind. -/
def registry (s : Scheduler σ) : Kind → Registry σ
  | .action => s.actions
  | .function => s.functions

/-- Attempts to register callables of both kinds, one after another. -/
def registerAll (s : Scheduler σ) (attempts : List (Kind × Registration σ)) :
    List (Except Error Unit) × Scheduler σ :=
  attemptAll (fun s a => s.register a.1 a.2.callable a.2.alias?) s attempts

/-- An attempt for a kind comes to what it comes to on the registry for that kind, and leaves the other as it is. -/
theorem attempted_register (s : Scheduler σ) (kind : Kind) (a : Registration σ) :
    (attempted s (s.register kind a.callable a.alias?)).1
        = (attempted (s.registry kind) ((s.registry kind).register a.callable a.alias?)).1 ∧
      (attempted s (s.register kind a.callable a.alias?)).2.registry kind
        = (attempted (s.registry kind) ((s.registry kind).register a.callable a.alias?)).2 ∧
      ∀ other ≠ kind, (attempted s (s.register kind a.callable a.alias?)).2.registry other = s.registry other := by
  cases kind with
  | action =>
    cases h : s.actions.register a.callable a.alias? <;> simp [register, registry, h, attempted, Except.map]
    · rintro (_ | _) hother <;> simp_all
  | function =>
    cases h : s.functions.register a.callable a.alias? <;> simp [register, registry, h, attempted, Except.map]
    · rintro (_ | _) hother <;> simp_all

theorem registerAll_ofKind (s : Scheduler σ) (attempts : List (Kind × Registration σ)) (kind : Kind) :
    (s.registerAll attempts).2.registry kind = ((s.registry kind).registerAll (ofKind kind attempts)).2 ∧
      ofKind kind ((attempts.map Prod.fst).zip (s.registerAll attempts).1)
        = ((s.registry kind).registerAll (ofKind kind attempts)).1 := by
  induction attempts generalizing s with
  | nil => exact ⟨rfl, rfl⟩
  | cons a rest ih =>
    obtain ⟨other, a⟩ := a
    obtain ⟨hresult, hown, hothers⟩ := attempted_register s other a
    have ih := ih (attempted s (s.register other a.callable a.alias?)).2
    by_cases hkind : other = kind
    · subst hkind
      rw [hown] at ih
      refine ⟨?_, ?_⟩
      · rw [ofKind_cons_self]
        exact ih.1
      · rw [ofKind_cons_self]
        exact (ofKind_cons_self _ _ _).trans (congrArg₂ List.cons hresult ih.2)
    · rw [hothers kind (Ne.symm hkind)] at ih
      refine ⟨?_, ?_⟩
      · rw [ofKind_cons_of_ne hkind]
        exact ih.1
      · rw [ofKind_cons_of_ne hkind]
        exact (ofKind_cons_of_ne hkind _ _).trans ih.2

end Scheduler

/-- In whatever row callables are registered, the first one under a name wins: every other attempt under it is refused as
a duplicate of the registry's kind, and leaves the registry as it was. In the end the registry has the names it had and
then the further ones, each once and in the order in which they were first tried, and under each of them the callable of
the first attempt; a new registry has just these. A scheduler's registry for a kind, and what the attempts for this kind
come to, are as if the attempts for the other kind had not been made. -/
theorem registrations_firstWin :
    (∀ (r : Registry σ) (attempts : List (Registration σ)), r.FirstWins attempts) ∧
      (∀ (kind : Kind) (attempts : List (Registration σ)),
        ((Registry.empty kind).registerAll attempts).2.names = (attempts.map Registration.name).eraseDups ∧
          ∀ name, ((Registry.empty kind).registerAll attempts).2.get? name
            = (attempts.find? fun a => a.name = name).map (·.callable)) ∧
      ∀ (s : Scheduler σ) (attempts : List (Kind × Registration σ)) (kind : Kind),
        (s.registerAll attempts).2.registry kind = ((s.registry kind).registerAll (ofKind kind attempts)).2 ∧
          ofKind kind ((attempts.map Prod.fst).zip (s.registerAll attempts).1)
            = ((s.registry kind).registerAll (ofKind kind attempts)).1 := by
  refine ⟨Registry.firstWins, fun kind attempts => ⟨?_, fun name => ?_⟩, Scheduler.registerAll_ofKind⟩
  · rw [Registry.names_registerAll]
    simp [Registry.names, Registry.empty]
  · rw [Registry.get?_registerAll]
    simp [Registry.get?, Registry.empty]

end Cadence
