import Cadence.Program.Basic

/-!
# Keys of maps

Two keys are the same or different whichever of them stands first (`Argument.sameKey_comm`), and keys that are the same
as a third one are the same (`Argument.sameKey_trans`). A map that entries are put into one after another has different
keys throughout (`Entries.pairwise_ofList`). What holds of the empty map, and goes on to hold as entries are put in,
holds of every such map (`Entries.ofList_induction`).
-/

namespace Cadence

/-! ## Same keys -/

theorem Binary64.equals_comm (x y : Binary64) : x.equals y = y.equals x := by
  unfold Binary64.equals
  cases x.position <;> cases y.position <;> first | rfl | exact BEq.comm

theorem Number.equals_comm (a b : Number) : a.equals b = b.equals a := by
  cases a <;> cases b <;> first | rfl | exact BEq.comm | exact Binary64.equals_comm _ _

theorem Literal.equals_comm (a b : Literal) : a.equals b = b.equals a := by
  cases a <;> cases b <;> first | rfl | exact BEq.comm | exact Number.equals_comm _ _

mutual

theorem Argument.equals_comm : (a b : Argument) → a.equals b = b.equals a
  | .literal l, b => by cases b <;> first | rfl | exact Literal.equals_comm l _
  | .list items, b => by cases b <;> first | rfl | exact Arguments.equals_comm items _
  | .map entries, b => by cases b <;> first | rfl | exact Entries.equals_comm entries _
  | .call f arguments, b => by
    cases b with
    | call g others =>
      show (f == g && Arguments.equals arguments others) = (g == f && Arguments.equals others arguments)
      rw [BEq.comm, Arguments.equals_comm arguments others]
    | literal _ => rfl
    | list _ => rfl
    | map _ => rfl
termination_by structural a => a

theorem Arguments.equals_comm : (a b : List Argument) → Arguments.equals a b = Arguments.equals b a
  | [], [] => rfl
  | [], _ :: _ => rfl
  | _ :: _, [] => rfl
  | a :: rest, b :: others => by
    rw [Arguments.equals, Arguments.equals, Argument.equals_comm a b, Arguments.equals_comm rest others]
termination_by structural a => a

theorem Entries.equals_comm : (a b : Entries) → Entries.equals a b = Entries.equals b a
  | [], [] => rfl
  | [], _ :: _ => rfl
  | _ :: _, [] => rfl
  | (k, v) :: rest, (l, w) :: others => by
    rw [Entries.equals, Entries.equals, Argument.equals_comm k l, Argument.equals_comm v w,
      Entries.equals_comm rest others]
termination_by structural a => a

end

theorem Argument.sameKey_comm (a b : Argument) : a.sameKey b = b.sameKey a := by
  unfold Argument.sameKey
  split
  · exact Binary64.equals_comm _ _
  · next h =>
    split
    · exact absurd rfl (h _ _ rfl)
    · exact Argument.equals_comm a b

theorem Binary64.equals_iff {x y : Binary64} : x.equals y = true ↔ ∃ i, x.position = some i ∧ y.position = some i := by
  unfold Binary64.equals
  cases x.position with
  | none => simp
  | some i =>
    cases y.position with
    | none => simp
    | some j =>
      constructor
      · exact fun h => ⟨i, rfl, congrArg some (beq_iff_eq.1 h).symm⟩
      · rintro ⟨k, hi, hj⟩
        exact beq_iff_eq.2 (Option.some.inj (hi.trans hj.symm))

theorem Binary64.equals_trans {x y z : Binary64} (h : x.equals y = true) (h' : y.equals z = true) :
    x.equals z = true := by
  obtain ⟨i, hx, hy⟩ := Binary64.equals_iff.1 h
  obtain ⟨j, hy', hz⟩ := Binary64.equals_iff.1 h'
  obtain rfl : i = j := Option.some.inj (hy.symm.trans hy')
  exact Binary64.equals_iff.2 ⟨i, hx, hz⟩

theorem Number.equals_trans {a b c : Number} (h : a.equals b = true) (h' : b.equals c = true) :
    a.equals c = true := by
  cases a <;> cases b <;> first | exact absurd h Bool.false_ne_true | skip
  all_goals cases c <;> first | exact absurd h' Bool.false_ne_true | skip
  · exact BEq.trans h h'
  · exact Binary64.equals_trans h h'

theorem Literal.equals_trans {a b c : Literal} (h : a.equals b = true) (h' : b.equals c = true) :
    a.equals c = true := by
  cases a <;> cases b <;> first | exact absurd h Bool.false_ne_true | skip
  all_goals cases c <;> first | exact absurd h' Bool.false_ne_true | skip
  · exact Number.equals_trans h h'
  · exact BEq.trans h h'
  · exact BEq.trans h h'

mutual

theorem Argument.equals_trans : (a b c : Argument) → a.equals b = true → b.equals c = true → a.equals c = true
  | .literal l, b, c, h, h' => by
    cases b <;> first | exact absurd h Bool.false_ne_true | skip
    cases c <;> first | exact absurd h' Bool.false_ne_true | skip
    exact Literal.equals_trans h h'
  | .list items, b, c, h, h' => by
    cases b <;> first | exact absurd h Bool.false_ne_true | skip
    cases c <;> first | exact absurd h' Bool.false_ne_true | skip
    exact Arguments.equals_trans items _ _ h h'
  | .map entries, b, c, h, h' => by
    cases b <;> first | exact absurd h Bool.false_ne_true | skip
    cases c <;> first | exact absurd h' Bool.false_ne_true | skip
    exact Entries.equals_trans entries _ _ h h'
  | .call f arguments, b, c, h, h' => by
    cases b <;> first | exact absurd h Bool.false_ne_true | skip
    cases c <;> first | exact absurd h' Bool.false_ne_true | skip
    rw [Argument.equals, Bool.and_eq_true] at h h' ⊢
    exact ⟨BEq.trans h.1 h'.1, Arguments.equals_trans arguments _ _ h.2 h'.2⟩
termination_by structural a => a

theorem Arguments.equals_trans : (a b c : List Argument) → Arguments.equals a b = true →
    Arguments.equals b c = true → Arguments.equals a c = true
  | [], [], _, _, h' => h'
  | [], _ :: _, _, h, _ => absurd h Bool.false_ne_true
  | _ :: _, [], _, h, _ => absurd h Bool.false_ne_true
  | _ :: _, _ :: _, [], _, h' => absurd h' Bool.false_ne_true
  | a :: rest, b :: others, c :: more, h, h' => by
    rw [Arguments.equals, Bool.and_eq_true] at h h' ⊢
    exact ⟨Argument.equals_trans a b c h.1 h'.1, Arguments.equals_trans rest others more h.2 h'.2⟩
termination_by structural a => a

theorem Entries.equals_trans : (a b c : Entries) → Entries.equals a b = true → Entries.equals b c = true →
    Entries.equals a c = true
  | [], [], _, _, h' => h'
  | [], _ :: _, _, h, _ => absurd h Bool.false_ne_true
  | _ :: _, [], _, h, _ => absurd h Bool.false_ne_true
  | _ :: _, _ :: _, [], _, h' => absurd h' Bool.false_ne_true
  | (k, v) :: rest, (l, w) :: others, (m, x) :: more, h, h' => by
    rw [Entries.equals, Bool.and_eq_true, Bool.and_eq_true] at h h' ⊢
    exact ⟨⟨Argument.equals_trans k l m h.1.1 h'.1.1, Argument.equals_trans v w x h.1.2 h'.1.2⟩,
      Entries.equals_trans rest others more h.2 h'.2⟩
termination_by structural a => a

end

/-- Keys that are no numbers are the same if they are equal. -/
theorem Argument.sameKey_of_not_number {a : Argument} (h : ∀ n, a ≠ .literal (.number n)) (b : Argument) :
    a.sameKey b = a.equals b := by
  unfold Argument.sameKey
  split
  · exact absurd rfl (h _)
  · rfl

/-- Only numbers are the same key as a number. -/
theorem Argument.exists_number_of_sameKey {n : Number} {b : Argument}
    (h : (Argument.literal (.number n)).sameKey b = true) : ∃ m, b = .literal (.number m) := by
  cases b with
  | literal l =>
    cases l with
    | number m => exact ⟨m, rfl⟩
    | string _ => exact absurd h Bool.false_ne_true
    | boolean _ => exact absurd h Bool.false_ne_true
  | _ => exact absurd h Bool.false_ne_true

theorem Argument.sameKey_trans {a b c : Argument} (h : a.sameKey b = true) (h' : b.sameKey c = true) :
    a.sameKey c = true := by
  by_cases hnumber : ∃ n, a = .literal (.number n)
  · obtain ⟨n, rfl⟩ := hnumber
    obtain ⟨m, rfl⟩ := exists_number_of_sameKey h
    obtain ⟨k, rfl⟩ := exists_number_of_sameKey h'
    exact Binary64.equals_trans h h'
  · have ha : ∀ n, a ≠ .literal (.number n) := fun n hn => hnumber ⟨n, hn⟩
    have hb : ∀ n, b ≠ .literal (.number n) := by
      rintro n rfl
      rw [sameKey_comm] at h
      exact hnumber (exists_number_of_sameKey h)
    rw [sameKey_of_not_number ha] at h ⊢
    rw [sameKey_of_not_number hb] at h'
    exact Argument.equals_trans a b c h h'

/-- Of keys that are the same, each is the same as any other key if the other is. -/
theorem Argument.sameKey_congr {a b : Argument} (h : a.sameKey b = true) (c : Argument) :
    a.sameKey c = b.sameKey c := by
  rw [Bool.eq_iff_iff]
  exact ⟨fun ha => sameKey_trans (sameKey_comm a b ▸ h) ha, fun hb => sameKey_trans h hb⟩

/-! ## Maps that entries are put into -/

/-- An entry of a map comes from one that was there, or from the one that is put into it. -/
theorem Entries.forall_insert {P : Argument → Prop} {key value : Argument} {entries : Entries}
    (h : ∀ e ∈ entries, P e.1 ∧ P e.2) (hkey : P key) (hvalue : P value) :
    ∀ e ∈ (Entries.insert key value entries).2, P e.1 ∧ P e.2 := by
  induction entries with
  | nil => exact List.forall_mem_singleton.2 ⟨hkey, hvalue⟩
  | cons e rest ih =>
    obtain ⟨k, v⟩ := e
    obtain ⟨hfirst, hrest⟩ := List.forall_mem_cons.1 h
    rw [Entries.insert]
    split
    · exact List.forall_mem_cons.2 ⟨⟨hfirst.1, hvalue⟩, hrest⟩
    · exact List.forall_mem_cons.2 ⟨hfirst, ih hrest⟩

/-- The keys of a map are as before, with a new one behind them if it is different from all of them. -/
theorem Entries.keys_insert (key value : Argument) (entries : Entries) :
    (Entries.insert key value entries).2.map (·.1) = entries.map (·.1) ∨
      (∀ e ∈ entries, e.1.sameKey key = false) ∧
        (Entries.insert key value entries).2.map (·.1) = entries.map (·.1) ++ [key] := by
  induction entries with
  | nil => exact .inr ⟨fun _ he => absurd he List.not_mem_nil, rfl⟩
  | cons e rest ih =>
    obtain ⟨k, v⟩ := e
    rw [Entries.insert]
    split
    · exact .inl rfl
    · next hkey =>
      rcases ih with ih | ⟨hnew, ih⟩
      · exact .inl (congrArg (k :: ·) ih)
      · exact .inr ⟨List.forall_mem_cons.2 ⟨Bool.not_eq_true _ ▸ hkey, hnew⟩, congrArg (k :: ·) ih⟩

theorem Entries.pairwise_insert {entries : Entries} (h : entries.Pairwise fun e f => e.1.sameKey f.1 = false)
    (key value : Argument) :
    (Entries.insert key value entries).2.Pairwise fun e f => e.1.sameKey f.1 = false := by
  have hkeys : ∀ es : Entries, es.Pairwise (fun e f => e.1.sameKey f.1 = false) ↔
      (es.map (·.1)).Pairwise fun k l => k.sameKey l = false := by
    intro es
    rw [List.pairwise_map]
  rw [hkeys] at h ⊢
  rcases Entries.keys_insert key value entries with hsame | ⟨hnew, hmore⟩
  · rw [hsame]
    exact h
  · rw [hmore, List.pairwise_append]
    refine ⟨h, List.pairwise_singleton _ _, ?_⟩
    intro k hk l hl
    obtain ⟨e, he, rfl⟩ := List.mem_map.1 hk
    rw [List.mem_singleton.1 hl]
    exact hnew e he

/-- What holds of the empty map, and goes on to hold as entries are put in, holds of the map of these entries. -/
theorem Entries.ofList_induction {P : Entries → Prop} {added : List (Argument × Argument)} (hempty : P [])
    (hinsert : ∀ e ∈ added, ∀ entries, P entries → P (Entries.insert e.1 e.2 entries).2) :
    P (Entries.ofList added) := by
  rw [Entries.ofList]
  generalize ([] : Entries) = before at hempty
  induction added generalizing before with
  | nil => exact hempty
  | cons e rest ih =>
    obtain ⟨hfirst, hrest⟩ := List.forall_mem_cons.1 hinsert
    exact ih hrest _ (hfirst before hempty)

/-- Whatever entries are put into a map, its keys are different. -/
theorem Entries.pairwise_ofList (added : List (Argument × Argument)) :
    (Entries.ofList added).Pairwise fun e f => e.1.sameKey f.1 = false :=
  Entries.ofList_induction (P := fun entries => entries.Pairwise fun e f => e.1.sameKey f.1 = false)
    List.Pairwise.nil fun e _ _ h => Entries.pairwise_insert h e.1 e.2

theorem Entries.forall_ofList {P : Argument → Prop} {added : List (Argument × Argument)}
    (h : ∀ e ∈ added, P e.1 ∧ P e.2) : ∀ e ∈ Entries.ofList added, P e.1 ∧ P e.2 := by
  refine Entries.ofList_induction (P := fun entries => ∀ e ∈ entries, P e.1 ∧ P e.2) ?_ ?_
  · exact fun _ he => absurd he List.not_mem_nil
  · intro e he entries hentries
    exact Entries.forall_insert hentries (h e he).1 (h e he).2

end Cadence
