import Cadence.Proofs.Bound.Closure
import Cadence.Proofs.Bound.Tree
import Cadence.Run.Cursor
import Mathlib.Data.Seq.Basic

/-!
# The leaves of a schedule

What a bound schedule comes to when it is laid out flat: a sequence, finite or without end, of intervals and of
calls for them (`Bound.Schedule.leaves`). A schedule within a schedule contributes its own leaves, and a row of items
is repeated as often as its passes say, perhaps without end (`endless`).
-/

namespace Cadence

open Stream' (Seq)
open Stream'.Seq (nil cons append corec)

/-! ## Repeated sequences -/

section Repeated

variable {α : Type}

/-- A sequence `n` times in a row. -/
def copies : Nat → Seq α → Seq α
  | 0, _ => nil
  | n + 1, s => s.append (copies n s)

/-- The first element of `rest`, or of `s` if `rest` is at its end, and what follows it. -/
def firstOf (s rest : Seq α) : Option (α × Seq α) :=
  match rest.destruct with
  | some found => some found
  | none => s.destruct

/-- A sequence over and over again. -/
def endless (s : Seq α) : Seq α :=
  corec (firstOf s) s

private theorem firstOf_cons (s rest : Seq α) (a : α) : firstOf s (cons a rest) = some (a, rest) := by
  rw [firstOf, Stream'.Seq.destruct_cons]

private theorem firstOf_nil (s : Seq α) : firstOf s nil = firstOf s s := by
  unfold firstOf
  rw [Stream'.Seq.destruct_nil]
  cases s.destruct <;> rfl

private theorem corec_firstOf (s rest : Seq α) : corec (firstOf s) rest = rest.append (endless s) := by
  refine Stream'.Seq.eq_of_bisim_strong
    (fun a b => ∃ rest, a = corec (firstOf s) rest ∧ b = rest.append (endless s)) ⟨rest, rfl, rfl⟩ ?_
  rintro _ _ ⟨rest, rfl, rfl⟩
  cases rest with
  | nil =>
    -- nothing is left of this turn, so the next one begins on both sides
    left
    rw [Stream'.Seq.nil_append, endless]
    cases h : firstOf s s with
    | none => rw [Stream'.Seq.corec_nil _ _ h, Stream'.Seq.corec_nil _ _ (firstOf_nil s ▸ h)]
    | some found => rw [Stream'.Seq.corec_cons h, Stream'.Seq.corec_cons (firstOf_nil s ▸ h)]
  | cons a rest =>
    right
    exact ⟨a, _, _, Stream'.Seq.corec_cons (firstOf_cons s rest a), Stream'.Seq.cons_append _ _ _, rest, rfl, rfl⟩

/-- Going over a sequence without end is going over it once, and then over it without end. -/
theorem endless_eq (s : Seq α) : endless s = s.append (endless s) :=
  corec_firstOf s s

private theorem endless_nil : endless (nil : Seq α) = nil := by
  have h : firstOf (nil : Seq α) nil = none := by
    unfold firstOf
    rw [Stream'.Seq.destruct_nil]
    rfl
  exact Stream'.Seq.corec_nil _ _ h

private theorem endless_cons (a : α) (s : Seq α) :
    endless (cons a s) = cons a (s.append (endless (cons a s))) := by
  conv_lhs => rw [endless_eq, Stream'.Seq.cons_append]

theorem of_mem_copies {s : Seq α} {a : α} {n : Nat} (h : a ∈ copies n s) : a ∈ s := by
  induction n with
  | zero => exact absurd h (Stream'.Seq.notMem_nil a)
  | succ n ih => exact (Stream'.Seq.of_mem_append h).elim id ih

theorem of_mem_endless {s : Seq α} {a : α} (h : a ∈ endless s) : a ∈ s := by
  -- `rest` is what is left of the turn that the element may still be in
  have key : ∀ rest, endless s = append rest (endless s) → a ∈ rest ∨ a ∈ s := by
    refine Stream'.Seq.mem_rec_on (C := fun t => ∀ rest, t = append rest (endless s) → a ∈ rest ∨ a ∈ s) h ?_
    intro b t hb rest hrest
    cases rest with
    | nil =>
      right
      rw [Stream'.Seq.nil_append] at hrest
      cases s with
      | nil => exact absurd (hrest.trans endless_nil) Stream'.Seq.cons_ne_nil
      | cons c s =>
        rw [endless_cons] at hrest
        obtain ⟨rfl, rfl⟩ := Stream'.Seq.cons_injective2 hrest
        rcases hb with rfl | hb
        · exact Stream'.Seq.mem_cons a s
        · exact (hb s rfl).elim (Stream'.Seq.mem_cons_of_mem b) id
    | cons c rest =>
      rw [Stream'.Seq.cons_append] at hrest
      obtain ⟨rfl, rfl⟩ := Stream'.Seq.cons_injective2 hrest
      rcases hb with rfl | hb
      · exact .inl (Stream'.Seq.mem_cons a rest)
      · exact (hb rest rfl).imp_left (Stream'.Seq.mem_cons_of_mem b)
  exact (key s (endless_eq s)).elim id id

theorem get?_of_drop_eq_cons {s rest : Seq α} {k : Nat} {a : α} (h : s.drop k = cons a rest) : s.get? k = some a := by
  rw [← Nat.add_zero k, ← Stream'.Seq.drop_get?, h, Stream'.Seq.get?_cons_zero]

theorem drop_succ_of_drop_eq_cons {s rest : Seq α} {k : Nat} {a : α} (h : s.drop k = cons a rest) :
    s.drop (k + 1) = rest := by
  rw [Stream'.Seq.drop, h, Stream'.Seq.tail_cons]

theorem get?_of_drop_eq_nil {s : Seq α} {k : Nat} (h : s.drop k = nil) : s.get? k = none := by
  rw [← Nat.add_zero k, ← Stream'.Seq.drop_get?, h, Stream'.Seq.get?_nil]

end Repeated

/-! ## Leaves -/

variable {σ : Type}

/-- A part of a schedule that yields one interval. -/
inductive Leaf (σ : Type)
  /-- A written interval. -/
  | interval (seconds : Binary64)
  /-- A call that yields an interval. -/
  | call (call : Bound.Call σ)

/-- The interval of a leaf. A written one is there without any call; a call is made, once. -/
def Leaf.pull : Leaf σ → Host σ Binary64
  | .interval seconds => pure seconds
  | .call c => do
    let value ← c.invoke
    Host.ofResult (c.interval value)

/-- The pull of a leaf has a property if calling each node of its call has it. -/
theorem Host.Closed.pull {P : ∀ α : Type, Host σ α → Prop} (hP : Host.Closed P) {leaf : Leaf σ}
    (h : ∀ c, leaf = .call c → ∀ node ∈ c.nodes, Calling P node) : P Binary64 leaf.pull := by
  cases leaf with
  | interval seconds => exact hP.pure seconds
  | call c => exact hP.bind (hP.invoke (h c rfl)) fun value => hP.ofResult (c.interval value)

/-- A sequence as often in a row as the passes say. -/
def Bound.Passes.rounds {α : Type} : Bound.Passes → Seq α → Seq α
  | .times n, s => copies n.toNat s
  | .forever, s => endless s

mutual

/-- The leaves of an item, in order. -/
def Bound.Item.leaves : Bound.Item σ Bound.Passes → Seq (Leaf σ)
  | .interval seconds => cons (.interval seconds) nil
  | .call c => cons (.call c) nil
  | .schedule items passes => passes.rounds (Bound.Items.leaves items)
termination_by structural a => a

def Bound.Items.leaves : List (Bound.Item σ Bound.Passes) → Seq (Leaf σ)
  | [] => nil
  | a :: rest => a.leaves.append (Bound.Items.leaves rest)
termination_by structural a => a

end

/-- The leaves of a schedule, in order: the row of its items, as often as its passes say. -/
def Bound.Schedule.leaves (s : Bound.Schedule σ Bound.Passes) : Seq (Leaf σ) :=
  s.toItem.leaves

mutual

/-- A call among the leaves stands in the place of an item. -/
theorem Bound.Item.mem_intervalCalls {c : Bound.Call σ} : ∀ {a : Bound.Item σ Bound.Passes},
    Leaf.call c ∈ a.leaves → c ∈ a.intervalCalls
  | .interval _, h => by
    rcases Stream'.Seq.mem_cons_iff.1 h with h | h
    · cases h
    · exact absurd h (Stream'.Seq.notMem_nil _)
  | .call _, h => by
    rcases Stream'.Seq.mem_cons_iff.1 h with h | h
    · cases h
      exact List.mem_singleton_self c
    · exact absurd h (Stream'.Seq.notMem_nil _)
  | .schedule items (.times n), h => Bound.Items.mem_intervalCalls (of_mem_copies h)
  | .schedule items .forever, h => Bound.Items.mem_intervalCalls (of_mem_endless h)

theorem Bound.Items.mem_intervalCalls {c : Bound.Call σ} : ∀ {items : List (Bound.Item σ Bound.Passes)},
    Leaf.call c ∈ Bound.Items.leaves items → c ∈ Bound.Items.intervalCalls items
  | [], h => absurd h (Stream'.Seq.notMem_nil _)
  | a :: rest, h => by
    rw [Bound.Items.intervalCalls, List.mem_append]
    rcases Stream'.Seq.of_mem_append h with h | h
    · exact .inl (Bound.Item.mem_intervalCalls h)
    · exact .inr (Bound.Items.mem_intervalCalls h)

end

/-! ## Schedules have leaves -/

theorem Bound.Passes.rounds_ne_nil {α : Type} {passes : Bound.Passes} (h : passes.Positive) {s : Seq α} (hs : s ≠ nil) :
    passes.rounds s ≠ nil := by
  cases s with
  | nil => exact absurd rfl hs
  | cons a s =>
    cases passes with
    | times n =>
      have hn : n.toNat ≠ 0 := fun hzero => h (UInt64.toNat_inj.1 hzero)
      obtain ⟨k, hk⟩ := Nat.exists_eq_succ_of_ne_zero hn
      rw [Bound.Passes.rounds, hk, copies, Stream'.Seq.cons_append]
      exact Stream'.Seq.cons_ne_nil
    | forever =>
      rw [Bound.Passes.rounds, endless_cons]
      exact Stream'.Seq.cons_ne_nil

mutual

theorem Bound.Item.leaves_ne_nil : ∀ {a : Bound.Item σ Bound.Passes}, a.Solid Bound.Passes.Positive → a.leaves ≠ nil
  | .interval _, _ => Stream'.Seq.cons_ne_nil
  | .call _, _ => Stream'.Seq.cons_ne_nil
  | .schedule _ _, ⟨hitems, hpasses, hsolid⟩ =>
    Bound.Passes.rounds_ne_nil hpasses (Bound.Items.leaves_ne_nil hitems hsolid)

theorem Bound.Items.leaves_ne_nil : ∀ {items : List (Bound.Item σ Bound.Passes)}, items ≠ [] →
    Bound.Items.Solid Bound.Passes.Positive items → Bound.Items.leaves items ≠ nil
  | [], hne, _ => absurd rfl hne
  | a :: rest, _, ⟨ha, _⟩ => by
    intro hnil
    rw [Bound.Items.leaves] at hnil
    cases hleaves : a.leaves with
    | nil => exact Bound.Item.leaves_ne_nil ha hleaves
    | cons leaf others =>
      rw [hleaves, Stream'.Seq.cons_append] at hnil
      exact Stream'.Seq.cons_ne_nil hnil

end

theorem Bound.Schedule.Solid.exists_leaf {s : Bound.Schedule σ Bound.Passes} (hs : s.Solid) :
    ∃ leaf rest, s.leaves = cons leaf rest := by
  cases hleaves : s.leaves with
  | nil => exact absurd hleaves (Bound.Item.leaves_ne_nil hs)
  | cons leaf rest => exact ⟨leaf, rest, rfl⟩

end Cadence
