import Cadence.Proofs.Program.Productions

/-!
# Proper programs

The programs whose written form is read back. Names are names, numbers are finite, intervals have no minus sign, the
keys of a map are different, and a schedule has an item (`Statement.Proper`); `Statement.nesting` says how deep
brackets stand inside one another. A written part begins with a character of its own (`Argument.Proper.begins`), and holds
neither a line feed nor a tab (`Statement.Proper.plain`).
-/

namespace Cadence

/-! ## Nesting -/

mutual

/-- How many lists, maps and calls an argument puts inside one another. -/
def Argument.nesting : Argument → Nat
  | .literal _ => 0
  | .list items => Arguments.nesting items + 1
  | .map entries => Entries.nesting entries + 1
  | .call _ arguments => Arguments.nesting arguments + 1
termination_by structural a => a

def Arguments.nesting : List Argument → Nat
  | [] => 0
  | a :: rest => max a.nesting (Arguments.nesting rest)
termination_by structural a => a

def Entries.nesting : Entries → Nat
  | [] => 0
  | (k, v) :: rest => max (max k.nesting v.nesting) (Entries.nesting rest)
termination_by structural a => a

end

/-- How many brackets a call puts inside one another, its own included. -/
def Call.nesting (c : Call) : Nat :=
  c.toArgument.nesting

/-- How many brackets a number of passes puts inside one another. -/
def Repeat.nesting : Repeat → Nat
  | .times _ => 0
  | .forever => 0
  | .call c => c.nesting

mutual

/-- How many schedules, calls, lists and maps an item puts inside one another. The passes of a schedule stand inside
it. -/
def Item.nesting : Item → Nat
  | .interval _ => 0
  | .call c => c.nesting
  | .schedule items passes => max (Items.nesting items) passes.nesting + 1
termination_by structural a => a

def Items.nesting : List Item → Nat
  | [] => 0
  | a :: rest => max a.nesting (Items.nesting rest)
termination_by structural a => a

end

/-- How many brackets a schedule puts inside one another, its own included. -/
def Schedule.nesting (s : Schedule) : Nat :=
  s.toItem.nesting

def Statement.nesting (s : Statement) : Nat :=
  max s.action.nesting s.schedule.nesting

/-! ## Proper programs -/

/-- A literal is no infinity, and not "not a number". -/
def Number.IsFinite : Number → Prop
  | .int _ => True
  | .float x => x.isFinite = true

/-- A literal is finite and written without a minus sign. -/
def Number.IsInterval : Number → Prop
  | .int i => 0 ≤ i.toInt
  | .float x => ∃ m : Magnitude, m.isFinite = true ∧ x = .signed false m

def Literal.Proper : Literal → Prop
  | .number n => n.IsFinite
  | .string _ => True
  | .boolean _ => True

mutual

/-- All that stands in an argument can be written: numbers are finite, keys are different, and calls are of names. -/
def Argument.Proper : Argument → Prop
  | .literal l => l.Proper
  | .list items => Arguments.Proper items
  | .map entries => entries.Pairwise (fun e f => e.1.sameKey f.1 = false) ∧ Entries.Proper entries
  | .call name arguments => isName name.toList = true ∧ Arguments.Proper arguments
termination_by structural a => a

def Arguments.Proper : List Argument → Prop
  | [] => True
  | a :: rest => a.Proper ∧ Arguments.Proper rest
termination_by structural a => a

def Entries.Proper : Entries → Prop
  | [] => True
  | (k, v) :: rest => (k.Proper ∧ v.Proper) ∧ Entries.Proper rest
termination_by structural a => a

end

def Call.Proper (c : Call) : Prop :=
  c.toArgument.Proper

def Repeat.Proper : Repeat → Prop
  | .times _ => True
  | .forever => True
  | .call c => c.Proper

mutual

/-- All that stands in an item can be written: intervals have no minus sign, and schedules have items. -/
def Item.Proper : Item → Prop
  | .interval n => n.IsInterval
  | .call c => c.Proper
  | .schedule items passes => (items ≠ [] ∧ passes.Proper) ∧ Items.Proper items
termination_by structural a => a

def Items.Proper : List Item → Prop
  | [] => True
  | a :: rest => a.Proper ∧ Items.Proper rest
termination_by structural a => a

end

def Schedule.Proper (s : Schedule) : Prop :=
  s.toItem.Proper

/-- All that stands in a statement can be written. -/
def Statement.Proper (s : Statement) : Prop :=
  s.action.Proper ∧ s.schedule.Proper

theorem Arguments.proper_iff {arguments : List Argument} :
    Arguments.Proper arguments ↔ ∀ a ∈ arguments, a.Proper := by
  induction arguments with
  | nil => simp [Arguments.Proper]
  | cons a rest ih => simp [Arguments.Proper, ih]

theorem Entries.proper_iff {entries : Entries} :
    Entries.Proper entries ↔ ∀ e ∈ entries, e.1.Proper ∧ e.2.Proper := by
  induction entries with
  | nil => simp [Entries.Proper]
  | cons e rest ih =>
    obtain ⟨k, v⟩ := e
    simp only [Entries.Proper, ih, List.forall_mem_cons]

theorem Items.proper_iff {items : List Item} : Items.Proper items ↔ ∀ a ∈ items, a.Proper := by
  induction items with
  | nil => simp [Items.Proper]
  | cons a rest ih => simp [Items.Proper, ih]

theorem Arguments.nesting_le_iff {arguments : List Argument} {levels : Nat} :
    Arguments.nesting arguments ≤ levels ↔ ∀ a ∈ arguments, a.nesting ≤ levels := by
  induction arguments with
  | nil => simp [Arguments.nesting]
  | cons a rest ih => rw [Arguments.nesting, Nat.max_le, ih, List.forall_mem_cons]

theorem Entries.nesting_le_iff {entries : Entries} {levels : Nat} :
    Entries.nesting entries ≤ levels ↔ ∀ e ∈ entries, e.1.nesting ≤ levels ∧ e.2.nesting ≤ levels := by
  induction entries with
  | nil => simp [Entries.nesting]
  | cons e rest ih =>
    obtain ⟨k, v⟩ := e
    rw [Entries.nesting, Nat.max_le, Nat.max_le, ih, List.forall_mem_cons]

theorem Items.nesting_le_iff {items : List Item} {levels : Nat} :
    Items.nesting items ≤ levels ↔ ∀ a ∈ items, a.nesting ≤ levels := by
  induction items with
  | nil => simp [Items.nesting]
  | cons a rest ih => rw [Items.nesting, Nat.max_le, ih, List.forall_mem_cons]

/-! ## Written rows -/

theorem Arguments.charsOfEach_eq_map (arguments : List Argument) :
    Arguments.charsOfEach arguments = arguments.map Argument.chars := by
  induction arguments with
  | nil => rfl
  | cons a rest ih => rw [Arguments.charsOfEach, ih, List.map_cons]

/-- The written form of an entry. -/
def entryChars (e : Argument × Argument) : List Char :=
  e.1.chars ++ ':' :: ' ' :: e.2.chars

theorem Entries.charsOfEach_eq_map (entries : Entries) : Entries.charsOfEach entries = entries.map entryChars := by
  induction entries with
  | nil => rfl
  | cons e rest ih =>
    obtain ⟨k, v⟩ := e
    rw [Entries.charsOfEach, ih, List.map_cons]
    rfl

theorem Items.charsOfEach_eq_map (items : List Item) : Items.charsOfEach items = items.map Item.chars := by
  induction items with
  | nil => rfl
  | cons a rest ih => rw [Items.charsOfEach, ih, List.map_cons]

/-! ## How written parts begin -/

theorem toNat_of_isAlpha {c : Char} (h : c.isAlpha = true) :
    65 ≤ c.toNat ∧ c.toNat ≤ 90 ∨ 97 ≤ c.toNat ∧ c.toNat ≤ 122 := by
  delta Char.isAlpha Char.isUpper Char.isLower at h
  simp only [Bool.or_eq_true, Bool.and_eq_true, decide_eq_true_eq] at h
  exact h

theorem isDigit_eq_false_of_isAlpha {c : Char} (h : c.isAlpha = true) : c.isDigit = false := by
  rw [← Bool.not_eq_true]
  intro hdigit
  have hdigits := toNat_of_isDigit hdigit
  have hletters := toNat_of_isAlpha h
  omega

theorem begins_of_range {c : Char} {r : List Char} (h : 0x20 < c.toNat) (h' : c.toNat < 0x7B)
    (hopen : c ≠ ')' ∧ c ≠ ']') : Begins (c :: r) := by
  refine ⟨c, r, rfl, isBlank_eq_false h (by omega), ?_⟩
  intro hc
  simp only [List.mem_cons, List.not_mem_nil, or_false] at hc
  rcases hc with hc | hc | hc
  · exact hopen.1 hc
  · exact hopen.2 hc
  · rw [hc] at h'
    exact absurd h' (by decide)

theorem begins_of_isAlpha {c : Char} (h : c.isAlpha = true) (r : List Char) : Begins (c :: r) := by
  have hrange := toNat_of_isAlpha h
  refine begins_of_range (by omega) (by omega) ⟨?_, ?_⟩
  · rintro rfl
    exact absurd h (by decide)
  · rintro rfl
    exact absurd h (by decide)

theorem begins_of_isDigit {c : Char} (h : c.isDigit = true) (r : List Char) : Begins (c :: r) := by
  have hrange := toNat_of_isDigit h
  refine begins_of_range (by omega) (by omega) ⟨?_, ?_⟩
  · rintro rfl
    exact absurd h (by decide)
  · rintro rfl
    exact absurd h (by decide)

theorem Number.chars_int (i : Int64) :
    (Number.int i).chars = (if i.toInt < 0 then ['-'] else []) ++ Nat.toDigits 10 i.toInt.natAbs :=
  rfl

theorem Number.chars_float {m : Magnitude} (h : m.isFinite = true) (negative : Bool) :
    (Number.float (.signed negative m)).chars
      = (if negative then ['-'] else []) ++ Layout.program.magnitude m := by
  simp only [Number.chars, Binary64.chars, h, if_true]

/-- An interval is written from a digit on. -/
theorem Number.IsInterval.exists_digit {n : Number} (h : n.IsInterval) :
    ∃ c r, n.chars = c :: r ∧ c.isDigit = true := by
  cases n with
  | int i =>
    have hi : ¬i.toInt < 0 := Int.not_lt.2 h
    rw [Number.chars_int, if_neg hi, List.nil_append]
    exact exists_digit_toDigits _
  | float x =>
    obtain ⟨m, hm, rfl⟩ := h
    rw [Number.chars_float hm, if_neg Bool.false_ne_true, List.nil_append]
    exact Layout.program.exists_digit m

/-- A number is written from a digit or a minus sign on. -/
theorem Number.IsFinite.exists_head {n : Number} (h : n.IsFinite) :
    ∃ c r, n.chars = c :: r ∧ (c.isDigit = true ∨ c = '-') := by
  cases n with
  | int i =>
    obtain ⟨c, r, hdigits, hc⟩ := exists_digit_toDigits i.toInt.natAbs
    rw [Number.chars_int, hdigits]
    split
    · exact ⟨'-', c :: r, rfl, .inr rfl⟩
    · exact ⟨c, r, rfl, .inl hc⟩
  | float x =>
    cases x with
    | nan => exact absurd h Bool.false_ne_true
    | signed negative m =>
      have hm : m.isFinite = true := h
      obtain ⟨c, r, htext, hc⟩ := Layout.program.exists_digit m
      rw [Number.chars_float hm, htext]
      split
      · exact ⟨'-', c :: r, rfl, .inr rfl⟩
      · exact ⟨c, r, rfl, .inl hc⟩

theorem Number.IsFinite.begins {n : Number} (h : n.IsFinite) : Begins n.chars := by
  obtain ⟨c, r, hchars, hc | rfl⟩ := h.exists_head
  · rw [hchars]
    exact begins_of_isDigit hc r
  · rw [hchars]
    exact begins_of_range (by decide) (by decide) (by decide)

theorem exists_alpha_of_isName {s : List Char} (h : isName s = true) : ∃ c r, s = c :: r ∧ c.isAlpha = true := by
  cases s with
  | nil => exact absurd h (by decide)
  | cons c r => exact ⟨c, r, rfl, (Bool.and_eq_true_iff.1 h).1⟩

theorem begins_of_isName {s : List Char} (h : isName s = true) : Begins s := by
  obtain ⟨c, r, rfl, hc⟩ := exists_alpha_of_isName h
  exact begins_of_isAlpha hc r

theorem Argument.Proper.begins {a : Argument} (h : a.Proper) : Begins a.chars := by
  cases a with
  | literal l =>
    cases l with
    | number n => exact Number.IsFinite.begins h
    | string s => exact begins_of_range (by decide) (by decide) (by decide)
    | boolean b =>
      cases b with
      | true => exact begins_of_isAlpha (by decide) _
      | false => exact begins_of_isAlpha (by decide) _
  | list items => exact begins_of_range (by decide) (by decide) (by decide)
  | map entries => exact ⟨_, _, rfl, by decide, by decide⟩
  | call name arguments => exact ((begins_of_isName h.1).append _).append _

theorem Item.Proper.begins {a : Item} (h : a.Proper) : Begins a.chars := by
  cases a with
  | interval n =>
    obtain ⟨c, r, hchars, hc⟩ := Number.IsInterval.exists_digit h
    rw [Item.chars, hchars]
    exact begins_of_isDigit hc r
  | call c => exact Argument.Proper.begins h
  | schedule items passes => exact begins_of_range (by decide) (by decide) (by decide)

/-! ## One line -/

/-- A text holds neither a line feed nor a tab. -/
def Plain (s : List Char) : Prop :=
  ∀ c ∈ s, c ≠ '\n' ∧ c ≠ '\t'

instance (s : List Char) : Decidable (Plain s) :=
  List.decidableBAll (fun c => c ≠ '\n' ∧ c ≠ '\t') s

theorem Plain.append {s t : List Char} (hs : Plain s) (ht : Plain t) : Plain (s ++ t) := by
  intro c hc
  rcases List.mem_append.1 hc with hc | hc
  · exact hs c hc
  · exact ht c hc

theorem Plain.cons {c : Char} {s : List Char} (hc : c ≠ '\n' ∧ c ≠ '\t') (hs : Plain s) : Plain (c :: s) :=
  List.forall_mem_cons.2 ⟨hc, hs⟩

theorem plain_nil : Plain [] := fun _ hc => absurd hc List.not_mem_nil

theorem plain_of_graphic {c : Char} (h : 0x20 ≤ c.toNat) : c ≠ '\n' ∧ c ≠ '\t' := by
  constructor
  · rintro rfl
    exact absurd h (by decide)
  · rintro rfl
    exact absurd h (by decide)

theorem Graphic.plain {s : List Char} (h : Graphic s) : Plain s :=
  fun c hc => plain_of_graphic (Nat.le_of_lt (h c hc).1)

theorem plain_commaSeparated {l : List (List Char)} (h : ∀ s ∈ l, Plain s) : Plain (commaSeparated l) := by
  induction l with
  | nil => exact plain_nil
  | cons s others ih =>
    cases others with
    | nil => exact h s List.mem_cons_self
    | cons t others =>
      have hrest := ih fun t' ht' => h t' (List.mem_cons_of_mem s ht')
      exact (h s List.mem_cons_self).append ((hrest.cons (by decide)).cons (by decide))

theorem plain_encode (s : List Char) : Plain (Quoted.encode s) := by
  have hescape : ∀ c, Plain (Quoted.escape c) := by
    intro c
    unfold Quoted.escape
    by_cases hquote : c = '"'
    · rw [if_pos hquote]
      decide
    by_cases hbackslash : c = '\\'
    · rw [if_neg hquote, if_pos hbackslash]
      decide
    by_cases hfeed : c = '\n'
    · rw [if_neg hquote, if_neg hbackslash, if_pos hfeed]
      decide
    by_cases htab : c = '\t'
    · rw [if_neg hquote, if_neg hbackslash, if_neg hfeed, if_pos htab]
      decide
    rw [if_neg hquote, if_neg hbackslash, if_neg hfeed, if_neg htab]
    exact plain_nil.cons ⟨hfeed, htab⟩
  refine Plain.append (Plain.cons (by decide) ?_) (by decide)
  intro c hc
  obtain ⟨d, _, hd⟩ := List.mem_flatMap.1 hc
  exact hescape d c hd

theorem plain_of_isName {s : List Char} (h : isName s = true) : Plain s := by
  cases s with
  | nil => exact plain_nil
  | cons c r =>
    obtain ⟨hc, hall⟩ := Bool.and_eq_true_iff.1 h
    refine Plain.cons ?_ ?_
    · have := toNat_of_isAlpha hc
      exact plain_of_graphic (by omega)
    · intro d hd
      have hpart := List.all_eq_true.1 hall d hd
      constructor
      · rintro rfl
        exact absurd hpart (by decide)
      · rintro rfl
        exact absurd hpart (by decide)

theorem Number.plain_chars (n : Number) : Plain n.chars := by
  cases n with
  | int i =>
    rw [Number.chars, decimalChars]
    refine Plain.append ?_ (Graphic.toDigits _).plain
    split <;> decide
  | float x => exact (x.graphic_chars .program).plain

mutual

theorem Argument.Proper.plain : ∀ {a : Argument}, a.Proper → Plain a.chars
  | .literal (.number n), _ => n.plain_chars
  | .literal (.string s), _ => plain_encode s.toList
  | .literal (.boolean b), _ => by
    cases b <;> decide
  | .list items, h =>
    ((plain_commaSeparated (Arguments.plain_of_proper h)).cons (by decide)).append (by decide)
  | .map entries, h =>
    ((plain_commaSeparated (Entries.plain_of_proper h.2)).cons (by decide)).append (by decide)
  | .call name arguments, h =>
    ((plain_of_isName h.1).append ((plain_commaSeparated (Arguments.plain_of_proper h.2)).cons (by decide))).append
      (by decide)

theorem Arguments.plain_of_proper : ∀ {arguments : List Argument}, Arguments.Proper arguments →
    ∀ s ∈ Arguments.charsOfEach arguments, Plain s
  | [], _ => by
    rintro _ ⟨⟩
  | a :: rest, h => List.forall_mem_cons.2 ⟨Argument.Proper.plain h.1, Arguments.plain_of_proper h.2⟩

theorem Entries.plain_of_proper : ∀ {entries : Entries}, Entries.Proper entries →
    ∀ s ∈ Entries.charsOfEach entries, Plain s
  | [], _ => by
    rintro _ ⟨⟩
  | (k, v) :: rest, h => List.forall_mem_cons.2
    ⟨(Argument.Proper.plain h.1.1).append (((Argument.Proper.plain h.1.2).cons (by decide)).cons (by decide)),
      Entries.plain_of_proper h.2⟩

end

theorem Call.Proper.plain {c : Call} (h : c.Proper) : Plain c.chars :=
  Argument.Proper.plain h

theorem Repeat.Proper.plain {passes : Repeat} (h : passes.Proper) : Plain passes.chars := by
  cases passes with
  | times n => exact (Graphic.toDigits _).plain
  | forever => decide
  | call c => exact Call.Proper.plain h

mutual

theorem Item.Proper.plain : ∀ {a : Item}, a.Proper → Plain a.chars
  | .interval n, _ => n.plain_chars
  | .call _, h => Call.Proper.plain h
  | .schedule items passes, h =>
    ((plain_commaSeparated (Items.plain_of_proper h.2)).cons (by decide)).append
      (((Repeat.Proper.plain h.1.2).cons (by decide)).cons (by decide))

theorem Items.plain_of_proper : ∀ {items : List Item}, Items.Proper items → ∀ s ∈ Items.charsOfEach items, Plain s
  | [], _ => by
    rintro _ ⟨⟩
  | a :: rest, h => List.forall_mem_cons.2 ⟨Item.Proper.plain h.1, Items.plain_of_proper h.2⟩

end

theorem Statement.Proper.plain {s : Statement} (h : s.Proper) : Plain s.chars :=
  (Call.Proper.plain h.1).append ((Item.Proper.plain h.2).cons (by decide))

end Cadence
