import Cadence.Builtin.Functions
import Cadence.Proofs.Program.Worth

/-!
# The least and the greatest argument

`Builtin.least` and `Builtin.greatest` go through their arguments once and keep the best so far, another one only if it
is better (`Builtin.bestFrom`). Better is what is better as a binary64 number. So what they give is the first argument of
which no less is kept than of any other (`Builtin.exists_extreme`). That is the first of greatest worth, unless the same
is kept of an argument of greater worth (`Builtin.IsFirstMost.chosen`); and the same is kept only of worths of which
one has more than 53 binary digits.
-/

namespace Cadence

namespace Value

/-- The number that a value counts as: a truth value is zero or one, and a string is the binary64 number that it reads
as. What is not a number counts as none. -/
def number? : Value → Option Number
  | int i => some (.int i)
  | boolean b => some (.int (if b then 1 else 0))
  | float x => if x = .nan then none else some (.float x)
  | string s => (Binary64.ofChars? s.toList).bind fun x => if x = .nan then none else some (.float x)
  | null => none
  | list _ => none
  | map _ => none

/-- What a value is worth that counts as a number, in units of `2 ^ -1074`. An infinity lies beyond every finite number
of its sign. -/
def worth (v : Value) : Int :=
  (v.number?.map Number.worth).getD 0

/-- What binary64 keeps of the worth of a value. -/
def kept (v : Value) : Int :=
  (v.number?.map Number.kept).getD 0

theorem toBinary64?_of_number? {v : Value} {n : Number} (h : v.number? = some n) :
    v.toBinary64? = some n.toBinary64 ∧ n.toBinary64 ≠ .nan ∧ n.toBinary64.units = v.kept := by
  have hkept : n.toBinary64.units = v.kept := by
    rw [kept, h, Number.units_toBinary64]
    rfl
  suffices hview : v.toBinary64? = some n.toBinary64 ∧ n.toBinary64 ≠ .nan from ⟨hview.1, hview.2, hkept⟩
  have hfloat : ∀ x : Binary64, (if x = .nan then none else some (Number.float x)) = some n →
      some x = some n.toBinary64 ∧ n.toBinary64 ≠ .nan := by
    intro x hx
    split at hx
    · cases hx
    · next hnan =>
      cases hx
      exact ⟨rfl, hnan⟩
  cases v with
  | int i =>
    cases h
    exact ⟨rfl, (Number.worth_toBinary64_int i).ne_nan⟩
  | boolean b =>
    cases h
    cases b
    · exact ⟨rfl, (Number.worth_toBinary64_int 0).ne_nan⟩
    · exact ⟨rfl, (Number.worth_toBinary64_int 1).ne_nan⟩
  | float x => exact hfloat x h
  | string s =>
    obtain ⟨x, hx, hn⟩ := Option.bind_eq_some_iff.1 h
    rw [toBinary64?, hx]
    exact hfloat x hn
  | null => cases h
  | list _ => cases h
  | map _ => cases h

/-- A value that counts as a number keeps its worth if the number has zeros behind its first 53 binary digits. -/
def KeepsDigits (v : Value) : Prop :=
  ∀ n, v.number? = some n → n.KeepsDigits

theorem KeepsDigits.kept_eq {v : Value} (h : v.KeepsDigits) : v.kept = v.worth := by
  rw [kept, worth]
  cases hn : v.number? with
  | none => rfl
  | some n => exact (h n hn).kept_eq

/-- Of a greater worth, no less is kept. -/
theorem kept_mono {v w : Value} (hv : v.number?.isSome = true) (hw : w.number?.isSome = true)
    (h : v.worth ≤ w.worth) : v.kept ≤ w.kept := by
  obtain ⟨m, hm⟩ := Option.isSome_iff_exists.1 hv
  obtain ⟨n, hn⟩ := Option.isSome_iff_exists.1 hw
  rw [worth, worth, hm, hn] at h
  rw [kept, kept, hm, hn]
  exact Number.kept_mono h

end Value

namespace Builtin

/-! ## The first of those that measure most -/

/-- A value of a row measures as much as every other, and more than those before it. -/
def IsFirstMost (measure : Value → Int) (row : List Value) (v : Value) : Prop :=
  ∃ before after, row = before ++ v :: after ∧ (∀ w ∈ before, measure w < measure v) ∧
    ∀ w ∈ after, measure w ≤ measure v

variable {measure : Value → Int} {row : List Value} {u v : Value}

theorem IsFirstMost.mem (h : IsFirstMost measure row v) : v ∈ row := by
  obtain ⟨before, after, rfl, _, _⟩ := h
  simp

theorem IsFirstMost.le (h : IsFirstMost measure row v) (hu : u ∈ row) : measure u ≤ measure v := by
  obtain ⟨before, after, rfl, hbefore, hafter⟩ := h
  rcases List.mem_append.1 hu with hu | hu
  · exact Int.le_of_lt (hbefore u hu)
  · rcases List.mem_cons.1 hu with rfl | hu
    · exact Int.le_refl _
    · exact hafter u hu

/-- In front of a value that measures more, a further value may stand. -/
theorem IsFirstMost.cons_of_lt (h : IsFirstMost measure row v) (hlt : measure u < measure v) :
    IsFirstMost measure (u :: row) v := by
  obtain ⟨before, after, rfl, hbefore, hafter⟩ := h
  exact ⟨u :: before, after, rfl, List.forall_mem_cons.2 ⟨hlt, hbefore⟩, hafter⟩

/-- Behind the first value, one that measures no more may stand. -/
theorem IsFirstMost.cons_of_le {first : Value} (h : IsFirstMost measure (first :: row) v)
    (hle : measure u ≤ measure first) : IsFirstMost measure (first :: u :: row) v := by
  obtain ⟨before, after, hrow, hbefore, hafter⟩ := h
  cases before with
  | nil =>
    obtain ⟨rfl, rfl⟩ := List.cons.inj hrow
    exact ⟨[], u :: row, rfl, hbefore, List.forall_mem_cons.2 ⟨hle, hafter⟩⟩
  | cons w before =>
    obtain ⟨rfl, rfl⟩ := List.cons.inj hrow
    obtain ⟨hfirst, hbefore⟩ := List.forall_mem_cons.1 hbefore
    refine ⟨first :: u :: before, after, rfl, ?_, hafter⟩
    exact List.forall_mem_cons.2 ⟨hfirst, List.forall_mem_cons.2 ⟨by omega, hbefore⟩⟩

/-! ## What the choice comes to -/

/-- Which end of a row of numbers is sought. -/
inductive Sought
  | least
  | greatest

/-- How much there is in a worth of what is sought: for the least, the smaller the more. -/
def Sought.amount : Sought → Int → Int
  | least, k => -k
  | greatest, k => k

theorem Sought.amount_inj {sought : Sought} {j k : Int} : sought.amount j = sought.amount k ↔ j = k := by
  cases sought <;> simp [amount]

/-- The comparison of binary64 numbers goes by what is sought. -/
def Compares (better : Binary64 → Binary64 → Bool) (sought : Sought) : Prop :=
  ∀ x y : Binary64, x ≠ .nan → y ≠ .nan → (better x y = true ↔ sought.amount y.units < sought.amount x.units)

theorem compares_lt : Compares Binary64.lt .least :=
  fun _ _ hx hy => (Binary64.lt_iff_units hx hy).trans Int.neg_lt_neg_iff.symm

theorem compares_gt : Compares (fun x y => y.lt x) .greatest :=
  fun _ _ hx hy => Binary64.lt_iff_units hy hx

variable {function : String} {better : Binary64 → Binary64 → Bool} {sought : Sought}

/-- Of a value and those behind it, the first is kept of which no less is kept than of any other. -/
theorem exists_bestFrom (hbetter : Compares better sought) {rest : List Value}
    (hrest : ∀ w ∈ rest, w.number?.isSome = true) {n : Number} (hv : v.number? = some n) (index : Nat) :
    ∃ w, bestFrom function better (n.toBinary64, v) index rest = .ok w ∧
      IsFirstMost (fun w => sought.amount w.kept) (v :: rest) w := by
  induction rest generalizing v n index with
  | nil => exact ⟨v, rfl, [], [], rfl, by simp, by simp⟩
  | cons u rest ih =>
    obtain ⟨hu, hrest⟩ := List.forall_mem_cons.1 hrest
    obtain ⟨m, hm⟩ := Option.isSome_iff_exists.1 hu
    obtain ⟨_, hnan, hunits⟩ := Value.toBinary64?_of_number? hv
    obtain ⟨hview, hnan', hunits'⟩ := Value.toBinary64?_of_number? hm
    have hcompare := hbetter m.toBinary64 n.toBinary64 hnan' hnan
    rw [hunits, hunits'] at hcompare
    rw [bestFrom, hview]
    by_cases hlt : sought.amount v.kept < sought.amount u.kept
    · obtain ⟨w, hw, hfirst⟩ := ih hrest hm (index + 1)
      refine ⟨w, by simpa only [hcompare.2 hlt, if_true] using hw, hfirst.cons_of_lt ?_⟩
      exact Int.lt_of_lt_of_le hlt (hfirst.le List.mem_cons_self)
    · obtain ⟨w, hw, hfirst⟩ := ih hrest hv (index + 1)
      refine ⟨w, ?_, hfirst.cons_of_le (Int.not_lt.1 hlt)⟩
      simpa only [mt hcompare.1 hlt, if_false, Bool.false_eq_true] using hw

/-- There is a choice among arguments that count as numbers: the first of which no less is kept than of any other. -/
theorem exists_extreme (hbetter : Compares better sought) (hne : row ≠ [])
    (hrow : ∀ w ∈ row, w.number?.isSome = true) :
    ∃ w, extreme function better row = .ok w ∧ IsFirstMost (fun w => sought.amount w.kept) row w := by
  cases row with
  | nil => exact absurd rfl hne
  | cons v rest =>
    obtain ⟨hv, hrest⟩ := List.forall_mem_cons.1 hrow
    obtain ⟨n, hn⟩ := Option.isSome_iff_exists.1 hv
    obtain ⟨hview, _, _⟩ := Value.toBinary64?_of_number? hn
    rw [extreme, hview]
    exact exists_bestFrom hbetter hrest hn 1

/-! ## Worth and what is kept of it -/

/-- If there is more of what is sought in what is kept of a value, there is more of it in its worth. -/
theorem Sought.lt_of_kept {v w : Value} (hv : v.number?.isSome = true) (hw : w.number?.isSome = true)
    (h : sought.amount v.kept < sought.amount w.kept) : sought.amount v.worth < sought.amount w.worth := by
  cases sought with
  | least =>
    have := mt (Value.kept_mono hv hw)
    simp only [amount] at h ⊢
    omega
  | greatest =>
    have := mt (Value.kept_mono hw hv)
    simp only [amount] at h ⊢
    omega

/-- How an argument that was chosen by what is kept of the arguments stands to their worth. -/
structure Chosen (sought : Sought) (row : List Value) (v : Value) : Prop where
  first : IsFirstMost (fun w => sought.amount w.kept) row v
  worth_iff : IsFirstMost (fun w => sought.amount w.worth) row v ↔
    ∀ w ∈ row, w.kept = v.kept → sought.amount w.worth ≤ sought.amount v.worth
  of_keepsDigits : (∀ w ∈ row, w.KeepsDigits) → IsFirstMost (fun w => sought.amount w.worth) row v

/-- The first of which most is kept is the first of most worth, unless the same is kept of one that is worth more. -/
theorem IsFirstMost.chosen (h : IsFirstMost (fun w => sought.amount w.kept) row v)
    (hrow : ∀ w ∈ row, w.number?.isSome = true) : Chosen sought row v := by
  have hworth : IsFirstMost (fun w => sought.amount w.worth) row v ↔
      ∀ w ∈ row, w.kept = v.kept → sought.amount w.worth ≤ sought.amount v.worth := by
    refine ⟨fun hfirst w hw _ => hfirst.le hw, fun hall => ?_⟩
    have hmore : ∀ w ∈ row, sought.amount w.kept < sought.amount v.kept →
        sought.amount w.worth < sought.amount v.worth :=
      fun w hw => Sought.lt_of_kept (hrow w hw) (hrow v h.mem)
    obtain ⟨before, after, rfl, hbefore, hafter⟩ := h
    refine ⟨before, after, rfl, fun w hw => hmore w (by simp [hw]) (hbefore w hw), fun w hw => ?_⟩
    have hmem : w ∈ before ++ v :: after := by simp [hw]
    rcases Int.lt_or_eq_of_le (hafter w hw) with hlt | heq
    · exact Int.le_of_lt (hmore w hmem hlt)
    · exact hall w hmem (Sought.amount_inj.1 heq)
  refine ⟨h, hworth, fun hkeeps => hworth.2 fun w hw hkept => ?_⟩
  rw [(hkeeps w hw).kept_eq, (hkeeps v h.mem).kept_eq] at hkept
  exact Int.le_of_eq (congrArg sought.amount hkept)

/-- Among arguments that count as numbers, `least` and `greatest` choose the first by what binary64 keeps of their
worth. It is the first by their worth itself unless the same is kept of another that has more of it. -/
theorem extremes_eq_chosen {arguments : List Value} (hne : arguments ≠ [])
    (hnumbers : ∀ v ∈ arguments, v.number?.isSome = true) :
    (∃ v, least arguments = .ok v ∧ Chosen .least arguments v) ∧
      ∃ v, greatest arguments = .ok v ∧ Chosen .greatest arguments v := by
  have hleast : ∃ v, extreme "min" Binary64.lt arguments = .ok v ∧
      IsFirstMost (fun w => Sought.least.amount w.kept) arguments v := exists_extreme compares_lt hne hnumbers
  have hgreatest : ∃ v, extreme "max" (fun x y => y.lt x) arguments = .ok v ∧
      IsFirstMost (fun w => Sought.greatest.amount w.kept) arguments v := exists_extreme compares_gt hne hnumbers
  constructor
  · obtain ⟨v, hv, hfirst⟩ := hleast
    exact ⟨v, hv, hfirst.chosen hnumbers⟩
  · obtain ⟨v, hv, hfirst⟩ := hgreatest
    exact ⟨v, hv, hfirst.chosen hnumbers⟩

namespace Sample

/-- Two integers of 54 binary digits, of which the second does not end in a zero. -/
def close : List Value :=
  [.int 9007199254740992, .int 9007199254740993]

theorem number?_of_mem_close : ∀ v ∈ close, v.number?.isSome = true := by
  simp [close, Value.number?]

theorem greatest_close : greatest close = .ok (.int 9007199254740992) := by
  have hlt : (Binary64.ofInt (9007199254740992 : Int64).toInt).lt (.ofInt (9007199254740993 : Int64).toInt) = false := by
    decide +kernel
  simp only [greatest, close, extreme, bestFrom, Value.toBinary64?, hlt, Bool.false_eq_true, if_false]

end Sample

/-- Of the two the same is kept, and so the first is chosen as the greatest although it is less. -/
theorem extremes_eq_chosen_close :
    Sample.close ≠ [] ∧ (∀ v ∈ Sample.close, v.number?.isSome = true) ∧
      greatest Sample.close = .ok (.int 9007199254740992) ∧
      ¬ IsFirstMost Value.worth Sample.close (.int 9007199254740992) := by
  have hne : Sample.close ≠ [] := List.cons_ne_nil _ _
  obtain ⟨_, v, hv, hchosen⟩ := extremes_eq_chosen hne Sample.number?_of_mem_close
  obtain rfl : v = .int 9007199254740992 := Except.ok.inj (hv.symm.trans Sample.greatest_close)
  refine ⟨hne, Sample.number?_of_mem_close, hv, fun hfirst => ?_⟩
  have hall := hchosen.worth_iff.1 hfirst (.int 9007199254740993) (by simp [Sample.close]) (by decide +kernel)
  exact absurd hall (by decide +kernel)

/-- They do not always give the first argument that is worth the least or the most. -/
theorem not_extremes_eq_first :
    ¬ ∀ arguments : List Value, arguments ≠ [] → (∀ v ∈ arguments, v.number?.isSome = true) →
      (∃ v, least arguments = .ok v ∧ IsFirstMost (fun w => -w.worth) arguments v) ∧
        ∃ v, greatest arguments = .ok v ∧ IsFirstMost Value.worth arguments v := by
  intro hall
  obtain ⟨_, v, hv, hfirst⟩ := hall Sample.close (List.cons_ne_nil _ _) Sample.number?_of_mem_close
  obtain rfl : v = .int 9007199254740992 := Except.ok.inj (hv.symm.trans Sample.greatest_close)
  have hle := hfirst.le (List.mem_cons_of_mem _ List.mem_cons_self)
  exact absurd hle (by decide +kernel)

end Builtin

end Cadence
