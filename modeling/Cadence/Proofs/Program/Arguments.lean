import Cadence.Proofs.Program.Proper

/-!
# Written arguments are read back

An argument that is written at any place of a program is read back, whatever closes it, if it fits into the levels that
are left, and is refused as nested too deeply otherwise (`Argument.Proper.readBack`). The induction is on the argument;
at every level of it the brackets count one level, and what stands inside them is read back by `gives_delimited`.
-/

namespace Cadence

/-! ## What closes a part ends its last token -/

theorem Closes.ends {rest : List Char} (h : Closes rest) : Numeral.Ends rest :=
  h.imp (by decide)

theorem Closes.endsName {rest : List Char} (h : Closes rest) : EndsName rest :=
  h.imp (by decide)

theorem Closes.additive? {rest : List Char} (h : Closes rest) : ∀ c ∈ rest.head?, additive? c = none :=
  h.imp (by decide)

theorem Closes.multiplicative? {rest : List Char} (h : Closes rest) : ∀ c ∈ rest.head?, multiplicative? c = none :=
  h.imp (by decide)

/-! ## Numbers -/

theorem fitInt64_toInt (i : Int64) : fitInt64 i.toInt = some i := by
  rw [fitInt64, if_pos ⟨i.minValue_le_toInt, i.toInt_le⟩, Int64.ofInt_toInt]

theorem scanSignIf_of_isDigit (signed : Bool) {c : Char} (h : c.isDigit = true) (r : List Char) :
    Numeral.scanSignIf signed (c :: r) = (false, c :: r) := by
  cases signed with
  | true => exact Numeral.scanSign_of_isDigit h r
  | false => rfl

/-- The number of a numeral with a sign: an integer of 64 bits, or a finite binary64 number. -/
def Numeral.Denotes (n : Numeral) (negative : Bool) : Number → Prop
  | .int i => n.isInteger = true ∧ (if negative then -(n.toNat : Int) else n.toNat) = i.toInt
  | .float x => n.isInteger = false ∧ n.toBinary64 negative = x ∧ x.isFinite = true

theorem Numeral.hasDigits_of_whole {n : Numeral} (h : n.whole ≠ []) : n.hasDigits = true := by
  rw [Numeral.hasDigits, List.isEmpty_eq_false_iff.2 h]
  rfl

/-- A numeral with a digit is read as the number that it denotes. -/
theorem gives_numeral {signed negative : Bool} {s unsigned rest : List Char} {n : Numeral} {value : Number}
    (hsign : Numeral.scanSignIf signed s = (negative, unsigned)) (hscan : Numeral.scan unsigned = (n, rest))
    (hdigits : n.hasDigits = true) (hvalue : n.Denotes negative value) :
    Gives True value rest (numberLiteral signed s) := by
  have hempty : (n.whole.isEmpty && n.fraction.isNone) = false := by
    rw [← Bool.not_eq_true, Bool.and_eq_true, Option.isNone_iff_eq_none]
    rintro ⟨hwhole, hfraction⟩
    rw [Numeral.hasDigits, hwhole, hfraction] at hdigits
    exact Bool.false_ne_true hdigits
  have hlt : rest.length < s.length := by
    have hscanned : (Numeral.scan unsigned).2.length < unsigned.length :=
      Numeral.length_scan_lt (hscan ▸ hdigits)
    have hsigned := Numeral.length_scanSignIf_le signed s
    rw [hscan] at hscanned
    rw [hsign] at hsigned
    exact Nat.lt_of_lt_of_le hscanned hsigned
  have hread : numberLiteral signed s = .ok ⟨value, rest, hlt⟩ := by
    simp only [numberLiteral, hsign, hscan, hempty, hdigits, Bool.false_eq_true, if_false, dif_pos]
    cases value with
    | int i =>
      obtain ⟨hint, hi⟩ := hvalue
      simp only [hint, if_true, hi, fitInt64_toInt]
    | float x =>
      obtain ⟨hint, hx, hfinite⟩ := hvalue
      simp only [hint, Bool.false_eq_true, if_false, hx, hfinite, if_true]
  rw [hread]
  exact Gives.pure _ _

theorem gives_integer {signed negative : Bool} {s rest : List Char} {count : Nat} {i : Int64}
    (hsign : Numeral.scanSignIf signed s = (negative, Nat.toDigits 10 count ++ rest))
    (hvalue : (if negative then -(count : Int) else count) = i.toInt) (hr : Numeral.Ends rest) :
    Gives True (.int i) rest (numberLiteral signed s) := by
  have hscan : Numeral.scan (Nat.toDigits 10 count ++ rest) = (⟨Nat.toDigits 10 count, none, none⟩, rest) :=
    Numeral.scan_eq (Numeral.scanDigits_append (fun _ => Numeral.isDigit_of_mem_toDigits) hr.endsDigits)
      (Numeral.scanFraction_of_ne fun h => (hr '.' h).2.1 rfl) (Numeral.scanExponent_of_ends hr)
  refine gives_numeral hsign hscan (Numeral.hasDigits_of_whole Nat.toDigits_ne_nil) ⟨rfl, ?_⟩
  rw [Numeral.toNat, Nat.ofDigitChars_ten_toDigits]
  exact hvalue

theorem gives_float {signed negative : Bool} {s rest : List Char} {m : Magnitude} (hm : m.isFinite = true)
    (hsign : Numeral.scanSignIf signed s = (negative, Layout.program.magnitude m ++ rest))
    (hr : Numeral.Ends rest) : Gives True (.float (.signed negative m)) rest (numberLiteral signed s) := by
  obtain ⟨n, hscan, hworth, hint⟩ := Layout.program.scan_magnitude m hr
  exact gives_numeral hsign hscan (Numeral.hasDigits_of_whole hworth.whole_ne_nil)
    ⟨hint rfl, hworth.toBinary64 negative, hm⟩

/-- An interval is read back, whether or not a sign may stand in front of it. -/
theorem Number.IsInterval.gives {n : Number} (h : n.IsInterval) (signed : Bool) {rest : List Char}
    (hr : Numeral.Ends rest) : Gives True n rest (numberLiteral signed (n.chars ++ rest)) := by
  obtain ⟨c, r, hchars, hc⟩ := h.exists_digit
  have hsign : Numeral.scanSignIf signed (n.chars ++ rest) = (false, n.chars ++ rest) := by
    rw [hchars]
    exact scanSignIf_of_isDigit signed hc _
  cases n with
  | int i =>
    have hi : ¬i.toInt < 0 := Int.not_lt.2 h
    rw [Number.chars_int, if_neg hi, List.nil_append] at hsign ⊢
    refine gives_integer hsign ?_ hr
    rw [if_neg Bool.false_ne_true]
    omega
  | float x =>
    obtain ⟨m, hm, rfl⟩ := h
    rw [Number.chars_float hm, if_neg Bool.false_ne_true, List.nil_append] at hsign ⊢
    exact gives_float hm hsign hr

theorem scanSignIf_minus (r : List Char) : Numeral.scanSignIf true ('-' :: r) = (true, r) :=
  rfl

theorem Number.IsFinite.gives {n : Number} (h : n.IsFinite) {rest : List Char} (hr : Numeral.Ends rest) :
    Gives True n rest (numberLiteral true (n.chars ++ rest)) := by
  cases n with
  | int i =>
    by_cases hi : i.toInt < 0
    · rw [Number.chars_int, if_pos hi]
      refine gives_integer (scanSignIf_minus _) ?_ hr
      rw [if_pos rfl]
      omega
    · exact Number.IsInterval.gives (n := .int i) (Int.not_lt.1 hi) true hr
  | float x =>
    cases x with
    | nan => exact absurd h Bool.false_ne_true
    | signed negative m =>
      have hm : m.isFinite = true := h
      cases negative with
      | false => exact Number.IsInterval.gives (n := .float (.signed false m)) ⟨m, hm, rfl⟩ true hr
      | true =>
        rw [Number.chars_float hm, if_pos rfl]
        exact gives_float hm (scanSignIf_minus _) hr

/-! ## Expressions -/

theorem factor_of_ne {c : Char} (h : c ≠ '(') (levels : Nat) (r : List Char) :
    factor levels (c :: r) = numberLiteral true (c :: r) := by
  cases levels with
  | zero =>
    rw [factor, if_neg]
    intro hc
    exact h (Option.some.inj hc)
  | succ levels =>
    rw [factor]
    rintro r' heq
    cases heq
    exact h rfl

/-- A number stands for an expression of itself. -/
theorem Number.IsFinite.gives_expression {n : Number} (h : n.IsFinite) (levels : Nat) {rest : List Char}
    (hr : Closes rest) : Gives True n rest (expression levels (n.chars ++ rest)) := by
  have hfactor : Gives True n rest (factor levels (n.chars ++ rest)) := by
    have hnumber := h.gives hr.ends
    obtain ⟨c, r, hchars, hc⟩ := h.exists_head
    have hopen : c ≠ '(' := by
      rintro rfl
      rcases hc with hc | hc <;> exact absurd hc (by decide)
    rw [hchars, List.cons_append] at hnumber ⊢
    rw [factor_of_ne hopen]
    exact hnumber
  exact gives_chain hr.skipBlanks hr.additive? (gives_chain hr.skipBlanks hr.multiplicative? hfactor)

/-! ## Maps -/

/-- A key that is new comes to stand at the end. -/
theorem Entries.insert_of_new {key value : Argument} {entries : Entries}
    (h : ∀ e ∈ entries, e.1.sameKey key = false) :
    (Entries.insert key value entries).2 = entries ++ [(key, value)] := by
  induction entries with
  | nil => rfl
  | cons e rest ih =>
    obtain ⟨k, v⟩ := e
    have hkey : k.sameKey key = false := h (k, v) List.mem_cons_self
    have hrest := ih fun e he => h e (List.mem_cons_of_mem _ he)
    rw [Entries.insert, hkey, if_neg Bool.false_ne_true, List.cons_append, ← hrest]

/-- Entries of different keys stay as they are when they are put into a map. -/
theorem Entries.ofList_of_pairwise {entries : Entries}
    (h : entries.Pairwise fun e f => e.1.sameKey f.1 = false) : Entries.ofList entries = entries := by
  -- for the induction, some entries are in the map already
  have key : ∀ before : Entries, (before ++ entries).Pairwise (fun e f => e.1.sameKey f.1 = false) →
      entries.foldl (fun es e => (Entries.insert e.1 e.2 es).2) before = before ++ entries := by
    clear h
    induction entries with
    | nil =>
      intro before _
      exact (List.append_nil before).symm
    | cons e rest ih =>
      intro before hbefore
      have hnew : ∀ f ∈ before, f.1.sameKey e.1 = false := fun f hf =>
        (List.pairwise_append.1 hbefore).2.2 f hf e List.mem_cons_self
      rw [List.foldl_cons, Entries.insert_of_new hnew, ih]
      · rw [List.append_assoc, List.singleton_append]
      · rw [List.append_assoc, List.singleton_append]
        exact hbefore
  exact key [] h

/-! ## Calls -/

/-- The production for what stands inside brackets, if a level is left for them. -/
def argumentInside : Nat → Option (Production Argument)
  | 0 => none
  | levels + 1 => some (argument levels)

theorem argument_eq (levels : Nat) : argument levels = argumentOf (argumentInside levels) (expression levels) := by
  cases levels <;> rfl

theorem call_eq (levels : Nat) (what : Expectation) : call levels what = callOf (argumentInside levels) what := by
  cases levels <;> rfl

/-- Brackets take one level; what reads inside them is given the levels that are left. -/
theorem gives_inside {α : Type} {value : α} {rest : List Char} {bound nesting : Nat}
    {f : Option (Production Argument) → Except Complaint (Reading α bound)}
    (hnone : ∃ r, f none = .error ⟨.tooDeep, r⟩)
    (hsome : ∀ levels, Gives (nesting ≤ levels) value rest (f (some (argument levels)))) (levels : Nat) :
    Gives (nesting + 1 ≤ levels) value rest (f (argumentInside levels)) := by
  cases levels with
  | zero => exact ⟨fun hle => absurd hle (Nat.not_succ_le_zero nesting), fun _ => hnone⟩
  | succ levels => exact (hsome levels).of_iff Nat.succ_le_succ_iff.symm

/-- An argument is read back, however many levels are left for it and whatever closes it. -/
def Argument.ReadBack (a : Argument) : Prop :=
  ∀ levels rest, Closes rest → Gives (a.nesting ≤ levels) a rest (argument levels (a.chars ++ rest))

/-- A row of arguments inside brackets is read back. -/
theorem gives_arguments {l : List Argument} (hproper : Arguments.Proper l) (h : ∀ a ∈ l, a.ReadBack) {close : Char}
    (hclose : close ∈ [')', ']', '\x7d']) (what : Expectation) (levels : Nat) (rest : List Char) :
    Gives (Arguments.nesting l ≤ levels) l rest (delimited (argument levels) close what
      (commaSeparated (Arguments.charsOfEach l) ++ close :: rest)) := by
  rw [Arguments.charsOfEach_eq_map]
  have hrow : Gives (∀ a ∈ l, a.nesting ≤ levels) l rest
      (delimited (argument levels) close what (commaSeparated (l.map Argument.chars) ++ close :: rest)) :=
    gives_delimited hclose (fun a ha => (Arguments.proper_iff.1 hproper a ha).begins) (fun a ha => h a ha levels) rest
  exact hrow.of_iff Arguments.nesting_le_iff.symm

/-- Arguments in parentheses are read back, if one more level is left. -/
theorem gives_argumentList {arguments : List Argument} (hproper : Arguments.Proper arguments)
    (h : ∀ a ∈ arguments, a.ReadBack) (levels : Nat) (called rest : List Char) :
    Gives (Arguments.nesting arguments + 1 ≤ levels) arguments rest
      (argumentList (argumentInside levels) called
        ('(' :: (commaSeparated (Arguments.charsOfEach arguments) ++ ')' :: rest))) := by
  refine gives_inside (f := fun inner => argumentList inner called _) ⟨_, rfl⟩ ?_ levels
  intro levels
  refine (gives_mark '(' (.argumentList called) _).after fun _ => ?_
  exact (gives_arguments hproper h (by decide) .argumentListEnd levels rest).map fun _ => Gives.pure arguments _

theorem Call.chars_append (c : Call) (rest : List Char) :
    c.chars ++ rest
      = c.name.toList ++ '(' :: (commaSeparated (Arguments.charsOfEach c.arguments) ++ ')' :: rest) := by
  simp only [Call.chars, Call.toArgument, Argument.chars, List.append_assoc, List.cons_append, List.nil_append]

theorem endsName_parenthesis (r : List Char) : EndsName ('(' :: r) := by
  rintro _ ⟨⟩
  decide

theorem gives_callOf {c : Call} (hproper : c.Proper) (h : ∀ a ∈ c.arguments, a.ReadBack) (levels : Nat)
    (what : Expectation) (rest : List Char) :
    Gives (c.nesting ≤ levels) c rest (callOf (argumentInside levels) what (c.chars ++ rest)) := by
  obtain ⟨name, arguments⟩ := c
  have hname : isName name.toList = true := hproper.1
  rw [Call.chars_append]
  refine (gives_name hname what (endsName_parenthesis _)).after fun _ => ?_
  have harguments := gives_argumentList hproper.2 h levels name.toList rest
  have hblank : isBlank '(' = false := by decide
  have hskip := skipBlanks_cons hblank (commaSeparated (Arguments.charsOfEach arguments) ++ ')' :: rest)
  rw [← hskip] at harguments
  refine harguments.map fun _ => ?_
  simp only [String.ofList_toList]
  exact Gives.pure _ _

/-! ## Words -/

theorem argumentOf_cons {c : Char} (h : c ∉ ['[', '\x7b', '"']) (inner : Option (Production Argument))
    (number : Production Number) (r : List Char) :
    argumentOf inner number (c :: r) =
      if c.isAlpha then word inner (c :: r)
      else if startsNumber c then do
        let n ← number (c :: r)
        return ⟨.literal (.number n.value), n.rest, n.rest_lt⟩
      else complain (.expected .argument) (c :: r) := by
  rw [argumentOf]
  all_goals
    rintro rfl
    exact h (by decide)

theorem argumentOf_of_isAlpha {c : Char} (h : c.isAlpha = true) (inner : Option (Production Argument))
    (number : Production Number) (r : List Char) : argumentOf inner number (c :: r) = word inner (c :: r) := by
  have hopen : c ∉ ['[', '\x7b', '"'] := by
    intro hc
    simp only [List.mem_cons, List.not_mem_nil, or_false] at hc
    rcases hc with rfl | rfl | rfl <;> exact absurd h (by decide)
  rw [argumentOf_cons hopen, if_pos h]

theorem startsNumber_iff {c : Char} :
    startsNumber c = true ↔ c.isDigit = true ∨ c = '.' ∨ c = '+' ∨ c = '-' ∨ c = '(' := by
  simp only [startsNumber, Bool.or_eq_true, beq_iff_eq, or_assoc]

theorem argumentOf_of_number {c : Char} (h : startsNumber c = true) (inner : Option (Production Argument))
    (number : Production Number) (r : List Char) :
    argumentOf inner number (c :: r) = (do
      let n ← number (c :: r)
      return ⟨.literal (.number n.value), n.rest, n.rest_lt⟩) := by
  have hrange : 40 ≤ c.toNat ∧ c.toNat ≤ 57 := by
    rcases startsNumber_iff.1 h with h | rfl | rfl | rfl | rfl
    · have := toNat_of_isDigit h
      omega
    all_goals decide
  have hopen : c ∉ ['[', '\x7b', '"'] := by
    intro hc
    simp only [List.mem_cons, List.not_mem_nil, or_false] at hc
    rcases hc with rfl | rfl | rfl <;> exact absurd hrange (by decide)
  have halpha : ¬c.isAlpha = true := by
    intro hc
    have := toNat_of_isAlpha hc
    omega
  rw [argumentOf_cons hopen, if_neg halpha, if_pos h]

/-! ## Arguments -/

theorem gives_number {n : Number} (h : n.IsFinite) (levels : Nat) {rest : List Char} (hr : Closes rest) :
    Gives True (.literal (.number n)) rest (argument levels (n.chars ++ rest)) := by
  have hnumber := h.gives_expression levels hr
  obtain ⟨c, r, hchars, hc⟩ := h.exists_head
  have hstarts : startsNumber c = true := startsNumber_iff.2 (hc.imp_right fun hc => .inr (.inr (.inl hc)))
  rw [argument_eq, hchars, List.cons_append, argumentOf_of_number hstarts, ← List.cons_append, ← hchars]
  exact hnumber.map fun _ => Gives.pure _ _

theorem gives_string (s : String) (levels : Nat) (rest : List Char) :
    Gives True (.literal (.string s)) rest (argument levels (Quoted.encode s.toList ++ rest)) := by
  have hdecode := Quoted.decode_encode s.toList rest
  rw [argument_eq, Quoted.encode, List.cons_append, List.cons_append, argumentOf]
  split
  · next heq =>
    rw [hdecode] at heq
    cases heq
  · next found heq =>
    rw [hdecode] at heq
    cases heq
    simp only [String.ofList_toList]
    exact Gives.pure _ _

/-- A truth value is read, if no parenthesis follows it. -/
theorem gives_boolean (b : Bool) (levels : Nat) {rest : List Char} (hr : EndsName rest)
    (hopen : (skipBlanks rest).head? ≠ some '(') :
    Gives True (.literal (.boolean b)) rest (argument levels (booleanChars b ++ rest)) := by
  have hname : isName (booleanChars b) = true := by
    cases b <;> decide
  have hword : argument levels (booleanChars b ++ rest) = word (argumentInside levels) (booleanChars b ++ rest) := by
    rw [argument_eq]
    cases b with
    | true => exact argumentOf_of_isAlpha (by decide) _ _ _
    | false => exact argumentOf_of_isAlpha (by decide) _ _ _
  rw [hword]
  refine (gives_name hname .argument hr).after fun _ => ?_
  rw [if_neg hopen]
  cases b with
  | true =>
    have htrue : booleanChars true = ['t', 'r', 'u', 'e'] := rfl
    rw [if_pos htrue]
    exact Gives.pure _ _
  | false =>
    have htrue : booleanChars false ≠ ['t', 'r', 'u', 'e'] := by decide
    have hfalse : booleanChars false = ['f', 'a', 'l', 's', 'e'] := rfl
    rw [if_neg htrue, if_pos hfalse]
    exact Gives.pure _ _

theorem gives_call {c : Call} (hproper : c.Proper) (h : ∀ a ∈ c.arguments, a.ReadBack) :
    c.toArgument.ReadBack := by
  intro levels rest _
  have hcall := gives_callOf hproper h levels .argument rest
  have hcalled : isName c.name.toList = true := hproper.1
  obtain ⟨d, r, hname, hd⟩ := exists_alpha_of_isName hcalled
  have hword : argument levels (c.chars ++ rest) = word (argumentInside levels) (c.chars ++ rest) := by
    rw [argument_eq, Call.chars_append, hname]
    exact argumentOf_of_isAlpha hd _ _ _
  show Gives (c.nesting ≤ levels) c.toArgument rest (argument levels (c.chars ++ rest))
  rw [hword]
  rw [Call.chars_append] at hcall ⊢
  refine (gives_name hcalled .argument (endsName_parenthesis _)).after fun _ => ?_
  rw [if_pos (by rw [skipBlanks_cons (by decide)]; rfl)]
  exact hcall.map fun _ => Gives.pure _ _

theorem gives_list {items : List Argument} (hproper : Arguments.Proper items) (h : ∀ a ∈ items, a.ReadBack) :
    (Argument.list items).ReadBack := by
  intro levels rest _
  have hchars : (Argument.list items).chars ++ rest
      = '[' :: (commaSeparated (Arguments.charsOfEach items) ++ ']' :: rest) := by
    rw [Argument.chars, List.cons_append, List.cons_append, List.append_assoc]
    rfl
  rw [hchars, argument_eq, Argument.nesting]
  refine gives_inside (f := fun inner => argumentOf inner _ _) ⟨_, rfl⟩ ?_ levels
  intro levels
  exact (gives_arguments hproper h (by decide) .listEnd levels rest).map fun _ => Gives.pure (Argument.list items) _

theorem gives_entry {e : Argument × Argument} (hvalue : e.2.Proper) (hk : e.1.ReadBack) (hv : e.2.ReadBack)
    (levels : Nat) {rest : List Char} (hr : Closes rest) :
    Gives (e.1.nesting ≤ levels ∧ e.2.nesting ≤ levels) e rest (entry (argument levels) (entryChars e ++ rest)) := by
  obtain ⟨k, v⟩ := e
  have hchars : entryChars (k, v) ++ rest = k.chars ++ ':' :: ' ' :: (v.chars ++ rest) := by
    rw [entryChars, List.append_assoc]
    rfl
  have hcolon : Closes (':' :: ' ' :: (v.chars ++ rest)) := closes_cons (by decide) _
  have hskip : skipBlanks (' ' :: (v.chars ++ rest)) = v.chars ++ rest := hvalue.begins.skipBlanks rest
  rw [hchars]
  refine (hk levels _ hcolon).bind fun _ => ?_
  have hmark := gives_mark ':' .mapColon (' ' :: (v.chars ++ rest))
  rw [← hcolon.skipBlanks] at hmark
  refine hmark.after fun _ => ?_
  have hread := hv levels rest hr
  rw [← hskip] at hread
  exact hread.map fun _ => Gives.pure (k, v) _

theorem gives_map {entries : Entries} (hkeys : entries.Pairwise fun e f => e.1.sameKey f.1 = false)
    (hproper : Entries.Proper entries) (h : ∀ e ∈ entries, e.1.ReadBack ∧ e.2.ReadBack) :
    (Argument.map entries).ReadBack := by
  intro levels rest _
  have hchars : (Argument.map entries).chars ++ rest
      = '\x7b' :: (commaSeparated (entries.map entryChars) ++ '\x7d' :: rest) := by
    rw [Argument.chars, Entries.charsOfEach_eq_map, List.cons_append, List.cons_append, List.append_assoc]
    rfl
  have hproper := Entries.proper_iff.1 hproper
  rw [hchars, argument_eq, Argument.nesting]
  refine gives_inside (f := fun inner => argumentOf inner _ _) ⟨_, rfl⟩ ?_ levels
  intro levels
  have hrow : Gives (∀ e ∈ entries, e.1.nesting ≤ levels ∧ e.2.nesting ≤ levels) entries rest
      (delimited (entry (argument levels)) '\x7d' .mapEnd
        (commaSeparated (entries.map entryChars) ++ '\x7d' :: rest)) :=
    gives_delimited (by decide) (fun e he => (hproper e he).1.begins.append _)
      (fun e he _ hr => gives_entry (hproper e he).2 (h e he).1 (h e he).2 levels hr) rest
  refine Gives.of_iff ?_ Entries.nesting_le_iff.symm
  refine hrow.map fun _ => ?_
  -- keys that are all different are entered one behind another
  simp only [Entries.ofList_of_pairwise hkeys]
  exact Gives.pure _ _

theorem gives_literal {l : Literal} (h : l.Proper) : (Argument.literal l).ReadBack := by
  intro levels rest hr
  have hfits : (Argument.literal l).nesting ≤ levels ↔ True := iff_true_intro (Nat.zero_le levels)
  refine Gives.of_iff ?_ hfits.symm
  cases l with
  | number n => exact gives_number h levels hr
  | string s => exact gives_string s levels rest
  | boolean b =>
    refine gives_boolean b levels hr.endsName ?_
    rw [hr.skipBlanks]
    intro h
    exact absurd (hr '(' h) (by decide)

mutual

theorem Argument.Proper.readBack : ∀ {a : Argument}, a.Proper → a.ReadBack
  | .literal _, h => gives_literal h
  | .list _, h => gives_list h (Arguments.readBack_of_proper h)
  | .map _, h => gives_map h.1 h.2 (Entries.readBack_of_proper h.2)
  | .call name arguments, h => gives_call (c := ⟨name, arguments⟩) h (Arguments.readBack_of_proper h.2)

theorem Arguments.readBack_of_proper : ∀ {arguments : List Argument}, Arguments.Proper arguments →
    ∀ a ∈ arguments, a.ReadBack
  | [], _ => by
    rintro _ ⟨⟩
  | _ :: _, h => List.forall_mem_cons.2 ⟨Argument.Proper.readBack h.1, Arguments.readBack_of_proper h.2⟩

theorem Entries.readBack_of_proper : ∀ {entries : Entries}, Entries.Proper entries →
    ∀ e ∈ entries, e.1.ReadBack ∧ e.2.ReadBack
  | [], _ => by
    rintro _ ⟨⟩
  | _ :: _, h => List.forall_mem_cons.2
    ⟨⟨Argument.Proper.readBack h.1.1, Argument.Proper.readBack h.1.2⟩, Entries.readBack_of_proper h.2⟩

end

/-- A proper call is read back, whatever follows it. -/
theorem Call.Proper.gives {c : Call} (h : c.Proper) (levels : Nat) (what : Expectation) (rest : List Char) :
    Gives (c.nesting ≤ levels) c rest (call levels what (c.chars ++ rest)) := by
  rw [call_eq]
  exact gives_callOf h (Arguments.readBack_of_proper h.2) levels what rest

end Cadence
