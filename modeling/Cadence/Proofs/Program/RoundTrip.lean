import Cadence.Proofs.Program.Arguments

/-!
# Written programs are read back

Reading undoes writing for every proper program that is nested at most `maxNesting` levels deep, whatever blanks stand
between its statements, and a deeper one is refused for its depth (`parse_text`). The key fact is that an item is read
back at any level (`Item.Proper.readBack`); the induction is on the item, and a schedule counts one level for its items
and for its passes alike.
-/

namespace Cadence

variable {α : Type}

/-! ## Numbers of passes -/

theorem Repeat.Proper.begins {passes : Repeat} (h : passes.Proper) : Begins passes.chars := by
  cases passes with
  | times n =>
    obtain ⟨c, r, hdigits, hc⟩ := exists_digit_toDigits n.toNat
    rw [Repeat.chars, hdigits]
    exact begins_of_isDigit hc r
  | forever => exact begins_of_range (by decide) (by decide) (by decide)
  | call c => exact Argument.Proper.begins h

/-- Digits are read as the number of passes that they are worth, if that fits 64 bits and no digit follows. -/
theorem gives_digits {digits : List Char} (hne : digits ≠ []) (hall : ∀ c ∈ digits, c.isDigit = true)
    (hcount : Nat.ofDigitChars 10 digits 0 < UInt64.size) (call : Production Call) {rest : List Char}
    (hr : Numeral.EndsDigits rest) :
    Gives True (.times (UInt64.ofNat (Nat.ofDigitChars 10 digits 0))) rest (passesOf call (digits ++ rest)) := by
  obtain ⟨c, r, rfl⟩ := List.exists_cons_of_ne_nil hne
  obtain ⟨hc, hrest⟩ := List.forall_mem_cons.1 hall
  have htake : (r ++ rest).takeWhile Char.isDigit = r := takeWhile_append_of_head hrest hr
  have hdrop : (r ++ rest).dropWhile Char.isDigit = rest := dropWhile_append_of_head hrest hr
  have hlt := length_dropWhile_lt Char.isDigit c (r ++ rest)
  rw [hdrop] at hlt
  have hread : passesOf call (c :: (r ++ rest))
      = .ok ⟨.times (UInt64.ofNat (Nat.ofDigitChars 10 (c :: r) 0)), rest, hlt⟩ := by
    rw [passesOf]
    · simp only [hc, if_true, htake, hdrop, hcount]
    · rintro rfl
      exact absurd hc (by decide)
  rw [List.cons_append, hread]
  exact Gives.pure _ _

theorem gives_times (n : UInt64) (call : Production Call) {rest : List Char} (hr : Numeral.EndsDigits rest) :
    Gives True (.times n) rest (passesOf call (Nat.toDigits 10 n.toNat ++ rest)) := by
  have hvalue := Nat.ofDigitChars_ten_toDigits (n := n.toNat)
  have hcount : Nat.ofDigitChars 10 (Nat.toDigits 10 n.toNat) 0 < UInt64.size := by
    rw [hvalue]
    exact n.toNat_lt_size
  have hread := gives_digits Nat.toDigits_ne_nil (fun _ => Numeral.isDigit_of_mem_toDigits) hcount call hr
  rwa [hvalue, UInt64.ofNat_toNat] at hread

/-- A number of passes is read back, if no digit follows it. -/
theorem Repeat.Proper.gives {passes : Repeat} (h : passes.Proper) (levels : Nat) {rest : List Char}
    (hr : Numeral.EndsDigits rest) :
    Gives (passes.nesting ≤ levels) passes rest (passesOf (Cadence.call levels .passes) (passes.chars ++ rest)) := by
  cases passes with
  | times n => exact (gives_times n _ hr).of_iff (iff_of_true trivial (Nat.zero_le levels))
  | forever => exact (Gives.pure _ _).of_iff (iff_of_true trivial (Nat.zero_le levels))
  | call c =>
    have hcall := Call.Proper.gives h levels .passes rest
    have hcalled : isName c.name.toList = true := h.1
    obtain ⟨d, r, hname, hd⟩ := exists_alpha_of_isName hcalled
    show Gives (c.nesting ≤ levels) (.call c) rest (passesOf (Cadence.call levels .passes) (c.chars ++ rest))
    rw [Call.chars_append, hname, List.cons_append] at hcall ⊢
    rw [passesOf]
    · rw [isDigit_eq_false_of_isAlpha hd, if_neg Bool.false_ne_true]
      exact hcall.map fun _ => Gives.pure _ _
    · rintro rfl
      exact absurd hd (by decide)

/-! ## Items and schedules -/

/-- An item is read back, however many levels are left for it and whatever closes it. -/
def Item.ReadBack (a : Item) : Prop :=
  ∀ levels rest, Closes rest →
    Gives (a.nesting ≤ levels) a rest
      (itemOf (Cadence.schedule levels) (Cadence.call levels .item) (a.chars ++ rest))

theorem Schedule.chars_append (s : Schedule) (rest : List Char) :
    s.chars ++ rest = '[' :: (commaSeparated (s.items.map Item.chars) ++ ']' :: ':' :: (s.passes.chars ++ rest)) := by
  simp only [Schedule.chars, Schedule.toItem, Item.chars, Items.charsOfEach_eq_map, List.append_assoc,
    List.cons_append]

/-- A schedule is read back, if its items are and no digit follows it. -/
theorem gives_schedule {s : Schedule} (hproper : s.Proper) (h : ∀ a ∈ s.items, a.ReadBack) (levels : Nat)
    {rest : List Char} (hr : Numeral.EndsDigits rest) :
    Gives (s.nesting ≤ levels) s rest (schedule levels (s.chars ++ rest)) := by
  obtain ⟨⟨hne, hpasses⟩, hitems⟩ := hproper
  rw [Schedule.chars_append]
  cases levels with
  | zero => exact ⟨fun hle => absurd hle (Nat.not_succ_le_zero _), fun _ => ⟨_, rfl⟩⟩
  | succ levels =>
    have hrow : Gives (∀ a ∈ s.items, a.nesting ≤ levels) s.items (':' :: (s.passes.chars ++ rest))
        (delimited (itemOf (schedule levels) (call levels .item)) ']' .scheduleEnd
          (commaSeparated (s.items.map Item.chars) ++ ']' :: ':' :: (s.passes.chars ++ rest))) :=
      gives_delimited (by decide) (fun a ha => (Items.proper_iff.1 hitems a ha).begins)
        (fun a ha => h a ha levels) _
    have hfits : s.nesting ≤ levels + 1 ↔ (∀ a ∈ s.items, a.nesting ≤ levels) ∧ s.passes.nesting ≤ levels := by
      rw [Schedule.nesting, Schedule.toItem, Item.nesting, Nat.succ_le_succ_iff, Nat.max_le, Items.nesting_le_iff]
    refine Gives.of_iff ?_ hfits.symm
    refine (gives_mark '[' .schedule _).after fun _ => ?_
    refine hrow.bind fun _ => ?_
    have hcolon : Closes (':' :: (s.passes.chars ++ rest)) := closes_cons (by decide) _
    have hread := hpasses.gives levels hr
    rw [← hpasses.begins.skipBlanks rest] at hread
    have hitems : Schedule.ofItems s.items s.passes = s := by
      rw [Schedule.ofItems, List.isEmpty_eq_false_iff.2 hne]
      rfl
    dsimp only
    split
    · next r heq =>
      rw [hcolon.skipBlanks] at heq
      cases heq
      refine hread.map fun _ => ?_
      simp only [hitems]
      exact Gives.pure _ _
    · next hother =>
      rw [hcolon.skipBlanks] at hother
      exact absurd rfl (hother _)

theorem itemOf_of_isDigit {c : Char} (h : c.isDigit = true) (inner : Production Schedule) (call : Production Call)
    (r : List Char) :
    itemOf inner call (c :: r) = (do
      let seconds ← numberLiteral false (c :: r)
      return ⟨.interval seconds.value, seconds.rest, seconds.rest_lt⟩) := by
  rw [itemOf]
  · rw [h, Bool.true_or, if_pos rfl]
  all_goals
    rintro rfl
    exact absurd h (by decide)

theorem itemOf_of_isAlpha {c : Char} (h : c.isAlpha = true) (inner : Production Schedule) (call : Production Call)
    (r : List Char) :
    itemOf inner call (c :: r) = (do
      let found ← call (c :: r)
      return ⟨.call found.value, found.rest, found.rest_lt⟩) := by
  have hpoint : (c == '.') = false := by
    rw [beq_eq_false_iff_ne]
    rintro rfl
    exact absurd h (by decide)
  rw [itemOf]
  · rw [isDigit_eq_false_of_isAlpha h, hpoint, Bool.or_false, if_neg Bool.false_ne_true]
  all_goals
    rintro rfl
    exact absurd h (by decide)

mutual

theorem Item.Proper.readBack : ∀ {a : Item}, a.Proper → a.ReadBack
  | .interval n, h => by
    intro levels rest hr
    have hnumber := Number.IsInterval.gives h false hr.ends
    obtain ⟨c, r, hchars, hc⟩ := Number.IsInterval.exists_digit h
    show Gives _ _ _ (itemOf _ _ (n.chars ++ rest))
    rw [hchars, List.cons_append] at hnumber ⊢
    rw [itemOf_of_isDigit hc]
    exact (hnumber.map fun _ => Gives.pure (Item.interval n) _).of_iff (iff_of_true trivial (Nat.zero_le levels))
  | .call c, h => by
    intro levels rest _
    have hcall := Call.Proper.gives h levels .item rest
    have hcalled : isName c.name.toList = true := h.1
    obtain ⟨d, r, hname, hd⟩ := exists_alpha_of_isName hcalled
    show Gives (c.nesting ≤ levels) _ _ (itemOf _ _ (c.chars ++ rest))
    rw [Call.chars_append, hname, List.cons_append] at hcall ⊢
    rw [itemOf_of_isAlpha hd]
    exact hcall.map fun _ => Gives.pure (Item.call c) _
  | .schedule items passes, h => by
    intro levels rest hr
    have hschedule := gives_schedule (s := ⟨items, passes⟩) h (Items.readBack_of_proper h.2) levels hr.ends.endsDigits
    show Gives (Schedule.nesting ⟨items, passes⟩ ≤ levels) _ _ (itemOf _ _ (Schedule.chars ⟨items, passes⟩ ++ rest))
    rw [Schedule.chars_append] at hschedule ⊢
    rw [itemOf]
    exact hschedule.map fun _ => Gives.pure (Schedule.toItem ⟨items, passes⟩) _

theorem Items.readBack_of_proper : ∀ {items : List Item}, Items.Proper items → ∀ a ∈ items, a.ReadBack
  | [], _ => by
    rintro _ ⟨⟩
  | _ :: _, h => List.forall_mem_cons.2 ⟨Item.Proper.readBack h.1, Items.readBack_of_proper h.2⟩

end

theorem Schedule.Proper.gives {s : Schedule} (h : s.Proper) (levels : Nat) {rest : List Char}
    (hr : Numeral.EndsDigits rest) :
    Gives (s.nesting ≤ levels) s rest (Cadence.schedule levels (s.chars ++ rest)) :=
  gives_schedule h (Items.readBack_of_proper h.2) levels hr

/-! ## Statements -/

theorem Schedule.Proper.begins {s : Schedule} (h : s.Proper) : Begins s.chars :=
  Item.Proper.begins h

theorem Statement.Proper.begins {s : Statement} (h : s.Proper) : Begins s.chars :=
  (Argument.Proper.begins h.1).append _

/-- A proper statement is read back, if no digit follows it. -/
theorem Statement.Proper.gives {s : Statement} (h : s.Proper) {rest : List Char} (hr : Numeral.EndsDigits rest) :
    Gives (s.nesting ≤ maxNesting) s rest (statement (s.chars ++ rest)) := by
  obtain ⟨haction, hschedule⟩ := h
  have hchars : s.chars ++ rest = s.action.chars ++ '@' :: (s.schedule.chars ++ rest) := by
    rw [Statement.chars, List.append_assoc, List.cons_append]
  have hskip : skipBlanks ('@' :: (s.schedule.chars ++ rest)) = '@' :: (s.schedule.chars ++ rest) :=
    skipBlanks_cons (by decide) _
  have hfits : s.nesting ≤ maxNesting ↔ s.action.nesting ≤ maxNesting ∧ s.schedule.nesting ≤ maxNesting :=
    Nat.max_le
  have hmark := gives_mark '@' .atSign (s.schedule.chars ++ rest)
  rw [← hskip] at hmark
  have hread := hschedule.gives maxNesting hr
  rw [← hschedule.begins.skipBlanks rest] at hread
  rw [hchars]
  refine Gives.of_iff ?_ hfits.symm
  refine (haction.gives maxNesting .action _).bind fun _ => ?_
  refine hmark.after fun _ => ?_
  exact hread.map fun _ => Gives.pure s _

/-- Reading comes to `value` if the text fits, and complains about too many levels otherwise. -/
structure Returns (fits : Prop) (value : α) (result : Except Complaint α) : Prop where
  ok : fits → result = .ok value
  tooDeep : ¬fits → ∃ r, result = .error ⟨.tooDeep, r⟩

namespace Returns

/-- What is read first may be too deep, or else what is made of it. -/
theorem of_gives {β : Type} {fits fits' : Prop} {value : α} {value' : β} {rest : List Char} {bound : Nat}
    {result : Except Complaint (Reading α bound)} {f : Reading α bound → Except Complaint β}
    (h : Gives fits value rest result) (hf : ∀ hlt, Returns fits' value' (f ⟨value, rest, hlt⟩)) :
    Returns (fits ∧ fits') value' (result >>= f) := by
  constructor
  · rintro ⟨hfits, hfits'⟩
    obtain ⟨hlt, hresult⟩ := h.ok hfits
    rw [hresult]
    exact (hf hlt).ok hfits'
  · intro hnot
    by_cases hfits : fits
    · obtain ⟨hlt, hresult⟩ := h.ok hfits
      rw [hresult]
      exact (hf hlt).tooDeep fun hfits' => hnot ⟨hfits, hfits'⟩
    · obtain ⟨r, hresult⟩ := h.tooDeep hfits
      rw [hresult]
      exact ⟨r, rfl⟩

theorem pure (value : α) : Returns True value (.ok value) :=
  ⟨fun _ => rfl, fun h => absurd trivial h⟩

theorem map {β : Type} {fits : Prop} {value : α} {result : Except Complaint α} (h : Returns fits value result)
    (f : α → β) : Returns fits (f value) (result >>= fun a => .ok (f a)) := by
  constructor
  · intro hfits
    rw [h.ok hfits]
    rfl
  · intro hfits
    obtain ⟨r, hresult⟩ := h.tooDeep hfits
    exact ⟨r, by rw [hresult]; rfl⟩

theorem of_iff {fits fits' : Prop} {value : α} {result : Except Complaint α} (h : Returns fits value result)
    (hiff : fits ↔ fits') : Returns fits' value result :=
  ⟨fun hfits => h.ok (hiff.2 hfits), fun hfits => h.tooDeep fun hfits' => hfits (hiff.1 hfits')⟩

end Returns

theorem endsDigits_of_isBlank {blanks : List Char} (h : ∀ c ∈ blanks, isBlank c = true) {rest : List Char}
    (hr : Numeral.EndsDigits rest) : Numeral.EndsDigits (blanks ++ rest) := by
  cases blanks with
  | nil => exact hr
  | cons b blanks =>
    have hb := h b List.mem_cons_self
    apply Numeral.endsDigits_cons
    rw [← Bool.not_eq_true]
    intro hdigit
    have hrange := toNat_of_isDigit hdigit
    rw [isBlank_eq_false (by omega) (by omega)] at hb
    exact Bool.false_ne_true hb

/-- The written forms of some statements, each with the blanks behind it. -/
def charsOfStatements (l : List (Statement × List Char)) : List Char :=
  l.flatMap fun p => p.1.chars ++ p.2

theorem charsOfStatements_cons (s : Statement) (blanks : List Char) (l : List (Statement × List Char)) :
    charsOfStatements ((s, blanks) :: l) = s.chars ++ (blanks ++ charsOfStatements l) := by
  rw [charsOfStatements, List.flatMap_cons, List.append_assoc]
  rfl

theorem endsDigits_charsOfStatements {l : List (Statement × List Char)} (h : ∀ p ∈ l, p.1.Proper) :
    Numeral.EndsDigits (charsOfStatements l) := by
  cases l with
  | nil => exact closes_nil.ends.endsDigits
  | cons p others =>
    obtain ⟨s, blanks⟩ := p
    have hproper : s.Proper := h _ List.mem_cons_self
    have hcalled : isName s.action.name.toList = true := hproper.1.1
    obtain ⟨c, r, hname, hc⟩ := exists_alpha_of_isName hcalled
    rw [charsOfStatements_cons, Statement.chars, List.append_assoc, Call.chars_append, hname]
    exact Numeral.endsDigits_cons (isDigit_eq_false_of_isAlpha hc) _

/-- Proper statements with blanks behind each of them are read back. -/
theorem returns_statements {l : List (Statement × List Char)} (hne : l ≠ [])
    (h : ∀ p ∈ l, p.1.Proper ∧ ∀ c ∈ p.2, isBlank c = true) {s : List Char}
    (hs : skipBlanks s = charsOfStatements l) :
    Returns (∀ p ∈ l, p.1.nesting ≤ maxNesting) (l.map (·.1)) (statements s) := by
  induction l generalizing s with
  | nil => exact absurd rfl hne
  | cons p others ih =>
    obtain ⟨first, blanks⟩ := p
    obtain ⟨⟨hproper, hblanks⟩, hothers⟩ := List.forall_mem_cons.1 h
    have hends : Numeral.EndsDigits (blanks ++ charsOfStatements others) :=
      endsDigits_of_isBlank hblanks (endsDigits_charsOfStatements fun q hq => (hothers q hq).1)
    have hfirst : Gives (first.nesting ≤ maxNesting) first (blanks ++ charsOfStatements others)
        (statement (skipBlanks s)) := by
      rw [hs, charsOfStatements_cons]
      exact Statement.Proper.gives hproper hends
    have hfits : (∀ p ∈ (first, blanks) :: others, p.1.nesting ≤ maxNesting)
        ↔ first.nesting ≤ maxNesting ∧ ∀ p ∈ others, p.1.nesting ≤ maxNesting := List.forall_mem_cons
    rw [statements]
    refine Returns.of_iff (Returns.of_gives hfirst fun _ => ?_) hfits.symm
    dsimp only
    rw [skipBlanks_append hblanks]
    cases others with
    | nil =>
      have hskip : skipBlanks (charsOfStatements []) = [] := rfl
      rw [hskip, if_pos List.isEmpty_nil]
      exact (Returns.pure [first]).of_iff (iff_of_true trivial fun _ hq => absurd hq List.not_mem_nil)
    | cons q others =>
      have hnext : Begins (charsOfStatements (q :: others)) := by
        rw [charsOfStatements_cons]
        exact Begins.append (Statement.Proper.begins (hothers q List.mem_cons_self).1) _
      have hskip : skipBlanks (charsOfStatements (q :: others)) = charsOfStatements (q :: others) := by
        rw [← List.append_nil (charsOfStatements _), hnext.skipBlanks]
      have hmore : (charsOfStatements (q :: others)).isEmpty = false := by
        obtain ⟨c, r, hc, _⟩ := hnext
        rw [hc]
        rfl
      rw [hskip, hmore, if_neg Bool.false_ne_true]
      have hrest := (skipBlanks_append hblanks (charsOfStatements (q :: others))).trans hskip
      exact (ih (List.cons_ne_nil _ _) hothers hrest).map (first :: ·)

/-! ## Texts -/

/-- A text is read as `value` if it fits, and refused as nested too deeply otherwise. -/
structure ReadsAs (fits : Prop) (value : α) (result : Except SyntaxError α) : Prop where
  ok : fits → result = .ok value
  tooDeep : ¬fits → ∃ place, result = .error ⟨"nesting too deep (limit is 256)", place⟩

theorem Returns.inSource {fits : Prop} {value : α} {source : String} {read : List Char → Except Complaint α}
    (h : Returns fits value (read source.toList)) : ReadsAs fits value (inSource source read) := by
  constructor
  · intro hfits
    rw [Cadence.inSource, h.ok hfits]
    rfl
  · intro hfits
    obtain ⟨r, hresult⟩ := h.tooDeep hfits
    refine ⟨Place.ofRest source.toList r, ?_⟩
    rw [Cadence.inSource, hresult]
    rfl

/-- What a production reads to the end of a text is the whole of it. -/
theorem Gives.returns_whole {production : Production α} {fits : Prop} {value : α} {s : List Char} (hs : Begins s)
    (h : Gives fits value [] (production (s ++ []))) : Returns fits value (whole production s) := by
  rw [← hs.skipBlanks, List.append_nil] at h
  refine (Returns.of_gives h fun _ => ?_).of_iff (and_iff_left trivial)
  exact Returns.pure value

theorem Argument.Proper.readsAs {a : Argument} (h : a.Proper) :
    ReadsAs (a.nesting ≤ maxNesting) a (parseArgument a.text) := by
  apply Returns.inSource
  rw [Argument.text, String.toList_ofList]
  exact Gives.returns_whole h.begins (h.readBack maxNesting [] closes_nil)

theorem Schedule.Proper.readsAs {s : Schedule} (h : s.Proper) :
    ReadsAs (s.nesting ≤ maxNesting) s (parseSchedule s.text) := by
  apply Returns.inSource
  rw [Schedule.text, String.toList_ofList]
  exact Gives.returns_whole h.begins (h.gives maxNesting closes_nil.ends.endsDigits)

/-- The texts of proper statements, with blanks behind each of them, are read back. -/
theorem readsAs_join {l : List (Statement × String)} (hne : l ≠ [])
    (h : ∀ p ∈ l, p.1.Proper ∧ ∀ c ∈ p.2.toList, isBlank c = true) :
    ReadsAs (∀ p ∈ l, p.1.nesting ≤ maxNesting) (l.map (·.1))
      (parseProgram (String.join (l.map fun p => p.1.text ++ p.2))) := by
  have htext : (String.join (l.map fun p => p.1.text ++ p.2)).toList
      = charsOfStatements (l.map fun p => (p.1, p.2.toList)) := by
    simp only [String.toList_join, List.flatMap_map, charsOfStatements, String.toList_append, Statement.text,
      String.toList_ofList]
  have hproper : ∀ p ∈ l.map fun p => (p.1, p.2.toList), p.1.Proper ∧ ∀ c ∈ p.2, isBlank c = true :=
    List.forall_mem_map.2 h
  have hstatements := returns_statements (fun hnil => hne (List.map_eq_nil_iff.1 hnil)) hproper
    (s := charsOfStatements (l.map fun p => (p.1, p.2.toList)))
  rw [List.map_map] at hstatements
  apply Returns.inSource
  rw [htext]
  refine (hstatements ?_).of_iff List.forall_mem_map
  obtain ⟨p, others, rfl⟩ := List.exists_cons_of_ne_nil hne
  have hbegins := (Statement.Proper.begins (h p List.mem_cons_self).1).append
    (p.2.toList ++ charsOfStatements (others.map fun p => (p.1, p.2.toList)))
  rw [← charsOfStatements_cons] at hbegins
  rw [← List.append_nil (charsOfStatements _)]
  exact hbegins.skipBlanks []

/-- Statements, each with what stands between it and the next one. -/
def separated (between : String) : List Statement → List (Statement × String)
  | [] => []
  | s :: others => (s, if others.isEmpty then "" else between) :: separated between others

theorem map_fst_separated (between : String) (l : List Statement) : (separated between l).map (·.1) = l := by
  induction l with
  | nil => rfl
  | cons s others ih => rw [separated, List.map_cons, ih]

theorem snd_of_mem_separated {between : String} {l : List Statement} {p : Statement × String}
    (h : p ∈ separated between l) : p.2 = "" ∨ p.2 = between := by
  induction l with
  | nil => cases h
  | cons s others ih =>
    rcases List.mem_cons.1 h with rfl | h
    · dsimp only
      split
      · exact .inl rfl
      · exact .inr rfl
    · exact ih h

theorem intercalate_eq_join (between : String) (l : List Statement) :
    between.intercalate (l.map Statement.text) = String.join ((separated between l).map fun p => p.1.text ++ p.2) := by
  induction l with
  | nil => rw [List.map_nil, String.intercalate_nil, separated, List.map_nil, String.join_nil]
  | cons s others ih =>
    rw [separated, List.map_cons, List.map_cons, String.join_cons, ← ih]
    cases others with
    | nil =>
      rw [List.map_nil, String.intercalate_singleton, String.intercalate_nil, List.isEmpty_nil, if_pos rfl,
        String.append_empty, String.append_empty]
    | cons t others =>
      rw [List.map_cons, String.intercalate_cons_cons, List.isEmpty_cons, if_neg Bool.false_ne_true]

/-- The texts of proper statements, with blanks between them, are read back. -/
theorem readsAs_intercalate {l : List Statement} (hne : l ≠ []) (h : ∀ s ∈ l, s.Proper) {between : String}
    (hbetween : ∀ c ∈ between.toList, isBlank c = true) :
    ReadsAs (∀ s ∈ l, s.nesting ≤ maxNesting) l (parseProgram (between.intercalate (l.map Statement.text))) := by
  have hpairs : ∀ p ∈ separated between l, p.1.Proper ∧ ∀ c ∈ p.2.toList, isBlank c = true := by
    intro p hp
    have hmem : p.1 ∈ l := by
      rw [← map_fst_separated between l]
      exact List.mem_map_of_mem hp
    refine ⟨h p.1 hmem, ?_⟩
    rcases snd_of_mem_separated hp with hblank | hblank
    · rw [hblank]
      intro c hc
      cases hc
    · rw [hblank]
      exact hbetween
  have hne' : separated between l ≠ [] := by
    intro hnil
    rw [← map_fst_separated between l, hnil] at hne
    exact hne rfl
  have hread := readsAs_join hne' hpairs
  rw [map_fst_separated, ← intercalate_eq_join] at hread
  have hfits : (∀ s ∈ (separated between l).map (·.1), s.nesting ≤ maxNesting)
      ↔ ∀ p ∈ separated between l, p.1.nesting ≤ maxNesting := List.forall_mem_map
  rw [map_fst_separated] at hfits
  exact ⟨fun h => hread.ok (hfits.1 h), fun h => hread.tooDeep fun h' => h (hfits.2 h')⟩

/-- Reading undoes writing. The texts of proper statements, joined by any blanks, are read as these statements, or
refused for their depth if one of them is nested too deeply; each of them is on one line. So are the text of a proper
argument and that of a proper schedule. -/
theorem parse_text :
    (∀ l : List Statement, l ≠ [] → (∀ s ∈ l, s.Proper) → ∀ between : String,
        (∀ c ∈ between.toList, isBlank c = true) →
        ReadsAs (∀ s ∈ l, s.nesting ≤ maxNesting) l (parseProgram (between.intercalate (l.map Statement.text)))) ∧
      (∀ l : List (Statement × String), l ≠ [] →
        (∀ p ∈ l, p.1.Proper ∧ ∀ c ∈ p.2.toList, isBlank c = true) →
        ReadsAs (∀ p ∈ l, p.1.nesting ≤ maxNesting) (l.map (·.1))
          (parseProgram (String.join (l.map fun p => p.1.text ++ p.2)))) ∧
      (∀ s : Statement, s.Proper → ∀ c ∈ s.text.toList, c ≠ '\n' ∧ c ≠ '\t') ∧
      (∀ a : Argument, a.Proper → ReadsAs (a.nesting ≤ maxNesting) a (parseArgument a.text)) ∧
      ∀ s : Schedule, s.Proper → ReadsAs (s.nesting ≤ maxNesting) s (parseSchedule s.text) := by
  refine ⟨?_, ?_, ?_, ?_, ?_⟩
  · intro l hne h between hbetween
    exact readsAs_intercalate hne h hbetween
  · intro l hne h
    exact readsAs_join hne h
  · intro s h
    rw [Statement.text, String.toList_ofList]
    exact h.plain
  · intro a h
    exact h.readsAs
  · intro s h
    exact h.readsAs

/-- `greet("hi", {1: true})@[2, [pause()]:*]:3` -/
def Sample.greeting : Statement :=
  ⟨⟨"greet", [.literal (.string "hi"), .map [(.literal (.number (.int 1)), .literal (.boolean true))]]⟩,
    ⟨[.interval (.int 2), .schedule [.call ⟨"pause", []⟩] .forever], .times 3⟩⟩

theorem parse_text_greeting :
    Sample.greeting.Proper ∧ Sample.greeting.nesting ≤ maxNesting ∧
      parseProgram (String.intercalate "\n" ([Sample.greeting, Sample.greeting].map Statement.text))
        = .ok [Sample.greeting, Sample.greeting] := by
  have hproper : Sample.greeting.Proper := by
    refine ⟨⟨by decide, trivial, ⟨List.pairwise_singleton _ _, ⟨trivial, trivial⟩, trivial⟩, trivial⟩, ?_⟩
    refine ⟨⟨by decide, trivial⟩, show 0 ≤ (2 : Int64).toInt by decide, ?_⟩
    exact ⟨⟨⟨by decide, trivial⟩, ⟨by decide, trivial⟩, trivial⟩, trivial⟩
  have hnesting : Sample.greeting.nesting ≤ maxNesting := by decide
  have hread := parse_text.1 [Sample.greeting, Sample.greeting] (by decide)
    (List.forall_mem_cons.2 ⟨hproper, List.forall_mem_singleton.2 hproper⟩) "\n" (List.forall_mem_singleton.2 rfl)
  exact ⟨hproper, hnesting,
    hread.ok (List.forall_mem_cons.2 ⟨hnesting, List.forall_mem_singleton.2 hnesting⟩)⟩

end Cadence
