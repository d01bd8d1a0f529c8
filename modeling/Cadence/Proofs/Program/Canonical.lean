import Mathlib.Logic.Basic
import Cadence.Proofs.Program.Completeness
import Cadence.Proofs.Program.Keys

/-!
# Canonical form

Whatever derives from the grammar is proper and fits into the levels that were left (`Derives.wellFormed`); the
induction is on the derivation. So a program that was read can be written, and what is written is read as the same
program (`parse_text_of_parse`). The parts of properness come from different rules: that numbers are finite from their
tokens and from every operation, that intervals have no minus sign from the tokens without sign, that a schedule has an
item from the interval zero for none, and that the keys of a map are different from the way in which entries are put
into it (`Entries.pairwise_ofList`).
-/

namespace Cadence

/-! ## Numbers -/

theorem NumberText.isFinite {signed : Bool} {n : Number} {s t : List Char} (h : NumberText signed n s t) :
    n.IsFinite := by
  obtain ⟨negative, u, numeral, _, _, hvalue⟩ := h
  cases n with
  | int i => trivial
  | float x => exact hvalue.2.2

/-- A number without sign is an interval. -/
theorem NumberText.isInterval {n : Number} {s t : List Char} (h : NumberText false n s t) : n.IsInterval := by
  obtain ⟨negative, u, numeral, hsign, _, hvalue⟩ := h
  have hnegative : negative = false := by
    cases hsign with
    | none => rfl
    | plus hsigned => exact absurd hsigned Bool.false_ne_true
    | minus hsigned => exact absurd hsigned Bool.false_ne_true
  rw [hnegative] at hvalue
  cases n with
  | int i =>
    obtain ⟨_, hi⟩ := hvalue
    rw [if_neg Bool.false_ne_true] at hi
    show 0 ≤ i.toInt
    omega
  | float x =>
    obtain ⟨_, hx, hfinite⟩ := hvalue
    rw [← hx] at hfinite
    exact ⟨_, hfinite, hx.symm⟩

/-- The result of an operation is finite. -/
theorem Number.isFinite_of_apply {op : Operator} {a b n : Number} (h : a.apply op b = .ok n) : n.IsFinite := by
  cases n with
  | int i => trivial
  | float x =>
    show x.isFinite = true
    unfold Number.apply at h
    split at h
    · cases h
    · -- what is not worked out in the integers is rounded, and refused if that gives no finite number
      have hrounded : ∀ {y : Binary64},
          (if y.isFinite = true then .ok (.float y) else .error .notFinite : Except ArithmeticFault Number)
            = .ok (.float x) → x.isFinite = true := by
        intro y hy
        split at hy
        · next hfinite =>
          cases hy
          exact hfinite
        · cases hy
      dsimp only at h
      split at h
      · split at h
        · split at h
          · cases h
          · cases h
        · exact hrounded h
      · exact hrounded h

/-! ## What derives is well-formed -/

/-- An argument is proper and nested at most so many levels deep. -/
def Argument.WellFormed (levels : Nat) (a : Argument) : Prop :=
  a.Proper ∧ a.nesting ≤ levels

theorem Arguments.wellFormed_iff {levels : Nat} {arguments : List Argument} :
    (∀ a ∈ arguments, a.WellFormed levels) ↔
      Arguments.Proper arguments ∧ Arguments.nesting arguments ≤ levels := by
  rw [Arguments.proper_iff, Arguments.nesting_le_iff]
  exact forall₂_and

theorem Entries.wellFormed_iff {levels : Nat} {entries : Entries} :
    (∀ e ∈ entries, e.1.WellFormed levels ∧ e.2.WellFormed levels) ↔
      Entries.Proper entries ∧ Entries.nesting entries ≤ levels := by
  rw [Entries.proper_iff, Entries.nesting_le_iff, ← forall₂_and]
  exact forall₂_congr fun e _ => and_and_and_comm

def Item.WellFormed (levels : Nat) (a : Item) : Prop :=
  a.Proper ∧ a.nesting ≤ levels

theorem Items.wellFormed_iff {levels : Nat} {items : List Item} :
    (∀ a ∈ items, a.WellFormed levels) ↔ Items.Proper items ∧ Items.nesting items ≤ levels := by
  rw [Items.proper_iff, Items.nesting_le_iff]
  exact forall₂_and

def Element.WellFormed (levels : Nat) : (e : Element) → e.Value → Prop
  | .item, a => Item.WellFormed levels a
  | .argument, a => Argument.WellFormed levels a
  | .entry, e => Argument.WellFormed levels e.1 ∧ Argument.WellFormed levels e.2

def Element.AllWellFormed (levels : Nat) (e : Element) (l : List e.Value) : Prop :=
  ∀ a ∈ l, e.WellFormed levels a

/-- A value of a category is proper, and fits into the levels that are left. -/
def Category.WellFormed (levels : Nat) : (c : Category) → c.Value → Prop
  | .factor, n | .term, n | .expression, n => Number.IsFinite n
  | .call, c => Call.Proper c ∧ Call.nesting c ≤ levels
  | .passes, p => Repeat.Proper p ∧ Repeat.nesting p ≤ levels
  | .schedule, a => Item.WellFormed levels (Schedule.toItem a)
  | .element e, a => e.WellFormed levels a
  | .elements e _, l => e.AllWellFormed levels l
  | .row e _, l => e.AllWellFormed levels l

theorem Schedule.wellFormed_ofItems {levels : Nat} {items : List Item} {passes : Repeat}
    (hitems : ∀ a ∈ items, a.WellFormed levels) (hpasses : passes.Proper ∧ passes.nesting ≤ levels) :
    (Schedule.ofItems items passes).toItem.WellFormed (levels + 1) := by
  have key : ∀ {l : List Item}, l ≠ [] → (∀ a ∈ l, a.WellFormed levels) →
      (Item.schedule l passes).WellFormed (levels + 1) := by
    intro l hne hl
    obtain ⟨hproper, hnesting⟩ := Items.wellFormed_iff.1 hl
    exact ⟨⟨⟨hne, hpasses.1⟩, hproper⟩, Nat.succ_le_succ (Nat.max_le.2 ⟨hnesting, hpasses.2⟩)⟩
  cases items with
  | nil =>
    -- the interval zero stands for no items
    have hzero : (Item.interval (.int 0)).WellFormed levels := ⟨show 0 ≤ (0 : Int64).toInt by decide, Nat.zero_le _⟩
    exact key (List.cons_ne_nil _ _) (List.forall_mem_singleton.2 hzero)
  | cons a rest => exact key (List.cons_ne_nil a rest) hitems

/-- What derives from the grammar is proper, and nested at most as deep as levels were left. -/
theorem Derives.wellFormed {c : Category} {levels : Nat} {s t : List Char} {value : c.Value}
    (h : Derives c levels s value t) : c.WellFormed levels value := by
  induction h with
  | number h => exact h.isFinite
  | parentheses _ _ _ ih => exact ih
  | factor _ ih => exact ih
  | multiplied _ _ _ _ _ hresult => exact Number.isFinite_of_apply hresult
  | term _ ih => exact ih
  | added _ _ _ _ _ hresult => exact Number.isFinite_of_apply hresult
  | @call levels called _ _ _ arguments hname _ _ ih =>
    obtain ⟨hproper, hnesting⟩ := Arguments.wellFormed_iff.1 ih
    refine ⟨⟨?_, hproper⟩, Nat.succ_le_succ hnesting⟩
    rw [String.toList_ofList]
    exact hname
  | last _ _ _ ih => exact List.forall_mem_singleton.2 ih
  | more _ _ _ _ ih hothers => exact List.forall_mem_cons.2 ⟨ih, hothers⟩
  | noElement _ => exact fun _ ha => absurd ha List.not_mem_nil
  | someElements _ ih => exact ih
  | list _ ih =>
    obtain ⟨hproper, hnesting⟩ := Arguments.wellFormed_iff.1 ih
    exact ⟨hproper, Nat.succ_le_succ hnesting⟩
  | map _ ih =>
    obtain ⟨hproper, hnesting⟩ := Entries.wellFormed_iff.1 (Entries.forall_ofList ih)
    exact ⟨⟨Entries.pairwise_ofList _, hproper⟩, Nat.succ_le_succ hnesting⟩
  | entry _ _ _ _ hkey hvalue => exact ⟨hkey, hvalue⟩
  | calledArgument _ ih => exact ih
  | numberArgument _ ih => exact ⟨ih, Nat.zero_le _⟩
  | string _ => exact ⟨trivial, Nat.zero_le _⟩
  | boolean => exact ⟨trivial, Nat.zero_le _⟩
  | innerSchedule _ ih => exact ih
  | interval h => exact ⟨h.isInterval, Nat.zero_le _⟩
  | plusInterval h => exact ⟨h.isInterval, Nat.zero_le _⟩
  | calledInterval _ ih => exact ih
  | times _ _ _ => exact ⟨trivial, Nat.zero_le _⟩
  | forever => exact ⟨trivial, Nat.zero_le _⟩
  | calledPasses _ ih => exact ih
  | once _ ih => exact Schedule.wellFormed_ofItems ih ⟨trivial, Nat.zero_le _⟩
  | repeated _ _ _ _ hitems hpasses => exact Schedule.wellFormed_ofItems hitems hpasses

/-! ## Programs -/

theorem StatementText.wellFormed {s t : List Char} {a : Statement} (h : StatementText s a t) :
    a.Proper ∧ a.nesting ≤ maxNesting := by
  cases h with
  | intro haction _ _ hschedule =>
    obtain ⟨hproper, hnesting⟩ := haction.wellFormed
    obtain ⟨hproper', hnesting'⟩ := hschedule.wellFormed
    exact ⟨⟨hproper, hproper'⟩, Nat.max_le.2 ⟨hnesting, hnesting'⟩⟩

theorem ProgramText.wellFormed {s : List Char} {l : List Statement} (h : ProgramText s l) :
    l ≠ [] ∧ ∀ a ∈ l, a.Proper ∧ a.nesting ≤ maxNesting := by
  induction h with
  | last _ ha _ => exact ⟨List.cons_ne_nil _ _, List.forall_mem_singleton.2 ha.wellFormed⟩
  | more _ ha _ ih => exact ⟨List.cons_ne_nil _ _, List.forall_mem_cons.2 ⟨ha.wellFormed, ih.2⟩⟩

/-- The statements that are read from a text are proper, and nested at most as deep as is allowed. So their texts, with
any blanks between them, are read as the same statements. -/
theorem parse_text_of_parse {source : String} {l : List Statement} (h : parseProgram source = .ok l) :
    l ≠ [] ∧ (∀ s ∈ l, s.Proper ∧ s.nesting ≤ maxNesting) ∧
      ∀ between : String, (∀ c ∈ between.toList, isBlank c = true) →
        parseProgram (between.intercalate (l.map Statement.text)) = .ok l := by
  obtain ⟨hne, hwell⟩ := (statements_eq_ok_iff.1 (inSource_eq_ok_iff.1 h)).wellFormed
  refine ⟨hne, hwell, ?_⟩
  intro between hbetween
  exact (readsAs_intercalate hne (fun s hs => (hwell s hs).1) hbetween).ok fun s hs => (hwell s hs).2

/-- `f(3)@[0]:1`, which `f( 1+2 )@[]` is read as. -/
def Sample.sum : Statement :=
  ⟨⟨"f", [.literal (.number (.int 3))]⟩, Schedule.ofItems [] (.times 1)⟩

theorem parse_text_of_parse_sum :
    parseProgram "f( 1+2 )@[]" = .ok [Sample.sum] ∧
      parseProgram (String.intercalate "\n" ([Sample.sum].map Statement.text)) = .ok [Sample.sum] := by
  have hdigit : ∀ {levels : Nat} (d : Char) (k : Int64) {t : List Char}, d.isDigit = true →
      (Nat.ofDigitChars 10 [d] 0 : Int) = k.toInt → Derives .factor levels (d :: t) (Number.int k) t := by
    intro levels d k t hd hk
    refine .number ⟨false, _, ⟨[d], none, none⟩, .none, ⟨rfl, List.forall_mem_singleton.2 hd, ?_⟩, rfl, hk⟩
    exact ⟨t, t, rfl, .none, .none⟩
  have hblank : ∀ t, Blanks (' ' :: t) t := fun t => ⟨[' '], List.forall_mem_singleton.2 rfl, rfl⟩
  have hsum : Derives .expression 255 "1+2 )@[]".toList (Number.int 3) " )@[]".toList :=
    .added (.term (.factor (hdigit '1' 1 rfl rfl))) (Blanks.refl _) rfl (Blanks.refl _)
      (.factor (hdigit '2' 2 rfl rfl)) rfl
  have hname : isName ['f'] = true := by decide
  have haction : Derives .call 256 "f( 1+2 )@[]".toList Sample.sum.action "@[]".toList :=
    .call hname (Blanks.refl _) (.someElements (.last (hblank _) (.numberArgument hsum) (hblank _)))
  have hschedule : Derives .schedule 256 "[]".toList Sample.sum.schedule [] := .once (.noElement (Blanks.refl _))
  have htext : ProgramText "f( 1+2 )@[]".toList [Sample.sum] :=
    .last (Blanks.refl _) (.intro haction (Blanks.refl _) (Blanks.refl _) hschedule) (Blanks.refl _)
  have hread : parseProgram "f( 1+2 )@[]" = .ok [Sample.sum] := inSource_eq_ok_iff.2 (statements_eq_ok_iff.2 htext)
  exact ⟨hread, (parse_text_of_parse hread).2.2 "\n" (List.forall_mem_singleton.2 rfl)⟩

end Cadence
