import Cadence.Proofs.Program.Agreement

/-!
# Scans do what the productions do

Each scan agrees with its production wherever the head stands in a source: with the same value in front of what the
production leaves, or with the same complaint, and as deep in brackets as before. Chains (`Tracks.chain`) and rows
(`Tracks.row`) do so if their operands and elements do. For the scans that nest it is shown by induction on the levels
that are left: the levels and the depth of the head make up `maxNesting` together, so that the head is at the greatest
depth just where the productions have no level left (`tracks_factor`, `tracks_argument`, `tracks_schedule`).
-/

namespace Cadence

open String (utf8Len)

namespace Scan

variable {α β σ : Type} {source : List Char} {depth : Nat}

/-- A scan does what a production does, wherever in the source the head stands. -/
def Tracks (source : List Char) (depth : Nat) (scan : Scan α) (production : Production α) : Prop :=
  ∀ s, Agrees source depth scan s (outcome (production s))

section Chains

variable {operator? : Char → Option Operator} {scan : Scan Number} {operand : Production Number}

/-- The right operand of an operator, which begins the text `at_`, and what the operation comes to. -/
def operated (operand : Production Number) (op : Operator) (value : Number) (fault : List Char) : Production Number :=
  fun s => do
    let right ← operand s
    match value.apply op right.value with
    | .error what => complain (.arithmetic what) fault
    | .ok result => return ⟨result, right.rest, right.rest_lt⟩

theorem agrees_operation (hoperand : Tracks source depth scan operand) {s t : List Char} (ht : t <:+ source)
    (op : Operator) (value : Number) :
    Agrees source depth (operation (sizeBefore source t) op value scan) s
      (outcome (operated operand op value t s)) := by
  refine (hoperand s).bind fun right _ => ?_
  cases value.apply op right.value with
  | error fault => exact agrees_refuse ht rfl
  | ok result => exact .pure result right.rest

/-- Behind an operator, a chain goes on with what the operation comes to. -/
theorem outcome_chainFrom {s r : List Char} {c : Char} {op : Operator} {value : Number}
    (hs : Cadence.skipBlanks s = c :: r) (hop : operator? c = some op) :
    outcome (Cadence.chainFrom operator? operand value s)
      = outcome (operated operand op value (c :: r) (Cadence.skipBlanks r)) >>=
        fun p => outcome (Cadence.chainFrom operator? operand p.1 p.2) := by
  rw [Cadence.chainFrom]
  split
  · next heq =>
    rw [hs] at heq
    cases heq
  · next c' r' heq =>
    rw [hs] at heq
    cases heq
    dsimp only
    split
    · next hnone =>
      rw [hop] at hnone
      cases hnone
    · next op' hop' =>
      rw [hop] at hop'
      cases hop'
      unfold operated
      cases operand (Cadence.skipBlanks r) with
      | error e => rfl
      | ok right =>
        dsimp only [bind, Except.bind]
        cases value.apply op right.value with
        | error fault => rfl
        | ok result => exact outcome_bind_pure _ _

/-- Where no operator follows, a chain ends. -/
theorem outcome_chainFrom_of_end {s : List Char} {value : Number}
    (h : (Cadence.skipBlanks s).head?.bind operator? = none) :
    outcome (Cadence.chainFrom operator? operand value s) = .ok (value, Cadence.skipBlanks s) := by
  rw [Cadence.chainFrom]
  split
  · next heq =>
    rw [heq]
    rfl
  · next c r heq =>
    rw [heq] at h
    dsimp only
    split
    · exact congrArg (fun t => Except.ok (value, t)) heq.symm
    · next op hop =>
      have hnone : operator? c = none := h
      rw [hop] at hnone
      cases hnone

theorem agrees_chainStep_of_end {s : List Char} {value : Number}
    (h : (Cadence.skipBlanks s).head?.bind operator? = none) :
    Agrees source depth (chainStep operator? scan value) s (.ok (.inr value, Cadence.skipBlanks s)) := by
  refine (agrees_skipBlanks s).step ((agrees_offset _).step ((agrees_peek _).step ?_))
  rw [h]
  exact .pure _ _

/-- In front of an operator, a step of a chain comes to what the operation comes to. -/
theorem agrees_chainStep {s r : List Char} {c : Char} {op : Operator} {value : Number}
    (hs : Cadence.skipBlanks s = c :: r) (hop : operator? c = some op) {result : Except Complaint (Number × List Char)}
    (h : Agrees source depth (operation (sizeBefore source (c :: r)) op value scan) (Cadence.skipBlanks r) result) :
    Agrees source depth (chainStep operator? scan value) s (result.map fun p => (.inl p.1, p.2)) := by
  have hskip : Agrees source depth skipBlanks s (.ok ((), Cadence.skipBlanks s)) := agrees_skipBlanks s
  rw [hs] at hskip
  refine hskip.step ((agrees_offset _).step ((agrees_peek _).step ?_))
  rw [List.head?_cons, Option.bind_some, hop]
  exact (agrees_bump_cons c r).step ((agrees_skipBlanks r).step (h.map Sum.inl))

theorem Tracks.chainFrom (hoperand : Tracks source depth scan operand) (value : Number) (s : List Char) :
    Agrees source depth (Scan.chainFrom operator? scan value) s
      (outcome (Cadence.chainFrom operator? operand value s)) := by
  refine .of_suffix fun hs => ?_
  have hsuffix := skipBlanks_suffix s
  cases hnext : (Cadence.skipBlanks s).head?.bind operator? with
  | none =>
    rw [outcome_chainFrom_of_end hnext]
    exact Agrees.loop_done (agrees_chainStep_of_end hnext)
  | some op =>
    obtain ⟨c, hc, hop⟩ := Option.bind_eq_some_iff.1 hnext
    obtain ⟨r, hskip⟩ := List.head?_eq_some_iff.1 hc
    rw [hskip] at hsuffix
    rw [outcome_chainFrom hskip hop]
    refine Agrees.loop_bind (agrees_chainStep hskip hop (agrees_operation hoperand (hsuffix.trans hs) op value)) ?_
    intro result t hresult
    have hlt : t.length < s.length := by
      have hrest := rest_lt_of_outcome hresult
      have hle := hsuffix.length_le
      have hblanks := length_skipBlanks_le r
      rw [List.length_cons] at hle
      omega
    exact ⟨hlt, Tracks.chainFrom hoperand result t⟩
termination_by s.length

theorem Tracks.chain (hoperand : Tracks source depth scan operand) :
    Tracks source depth (Scan.chain operator? scan) (Cadence.chain operator? operand) := by
  intro s
  refine (hoperand s).bind fun first _ => ?_
  rw [outcome_bind_pure]
  exact hoperand.chainFrom first.value first.rest

end Chains

section Rows

variable {scan : Scan α} {element : Production α} {close : Char} {what : Expectation}

/-- Behind an element a row goes on if there is a comma, and else is closed. -/
theorem outcome_elements (s : List Char) :
    outcome (Cadence.elements element close what s) = outcome (element (Cadence.skipBlanks s)) >>= fun p =>
      if (Cadence.skipBlanks p.2).head? = some ',' then
        (outcome (Cadence.elements element close what (Cadence.skipBlanks p.2).tail)).map fun q => (p.1 :: q.1, q.2)
      else (outcome (mark close what (Cadence.skipBlanks p.2))).map fun q => ([p.1], q.2) := by
  rw [Cadence.elements]
  cases element (Cadence.skipBlanks s) with
  | error c => rfl
  | ok first =>
    have hfirst : outcome (.ok first) = .ok (first.value, first.rest) := rfl
    rw [ok_bind, hfirst, ok_bind]
    dsimp only
    split
    · next heq =>
      conv_rhs => rw [heq]
      rfl
    · next c r heq =>
      conv_rhs => rw [heq]
      by_cases hcomma : c = ','
      · subst hcomma
        rw [if_pos rfl, if_pos (List.head?_cons)]
        rw [List.tail_cons]
        cases Cadence.elements element close what r <;> rfl
      · have hhead : (c :: r).head? ≠ some ',' := fun h => hcomma (Option.some.inj h)
        rw [if_neg hcomma, if_neg hhead, mark]
        by_cases hclose : c = close
        · rw [if_pos hclose, if_pos hclose]
          rfl
        · rw [if_neg hclose, if_neg hclose]
          rfl

theorem Tracks.elements (helement : Tracks source depth scan element) (before : List α) (s : List Char) :
    Agrees source depth (Scan.elements scan close what before) s
      ((outcome (Cadence.elements element close what s)).map fun p => (before ++ p.1, p.2)) := by
  have hskip : Agrees source depth skipBlanks s (.ok ((), Cadence.skipBlanks s)) := agrees_skipBlanks s
  have hfirst := helement (Cadence.skipBlanks s)
  rw [outcome_elements]
  cases hresult : outcome (element (Cadence.skipBlanks s)) with
  | error c =>
    rw [hresult] at hfirst
    exact Agrees.loop_fail (hskip.step hfirst.fail)
  | ok p =>
    obtain ⟨a, rest⟩ := p
    have hlt := rest_lt_of_outcome hresult
    rw [hresult] at hfirst
    rw [ok_bind]
    dsimp only
    have hnext : Agrees source depth skipBlanks rest (.ok ((), Cadence.skipBlanks rest)) := agrees_skipBlanks rest
    by_cases hcomma : (Cadence.skipBlanks rest).head? = some ','
    · rw [if_pos hcomma]
      obtain ⟨r, hr⟩ := List.head?_eq_some_iff.1 hcomma
      rw [hr] at hnext ⊢
      have hshorter : r.length < s.length := by
        have hs := length_skipBlanks_le s
        have hrest := length_skipBlanks_le rest
        rw [hr, List.length_cons] at hrest
        omega
      have hothers := Tracks.elements helement (before ++ [a]) r
      have hmap : (Except.map (fun p : List α × List Char => (before ++ p.1, p.2))
          (Except.map (fun q => (a :: q.1, q.2)) (outcome (Cadence.elements element close what r))))
          = (outcome (Cadence.elements element close what r)).map fun p => (before ++ [a] ++ p.1, p.2) := by
        cases Cadence.elements element close what r with
        | error c => rfl
        | ok others => exact congrArg (fun l => Except.ok (l, others.rest)) (List.append_cons before a others.value)
      rw [List.tail_cons, hmap]
      refine Agrees.loop_more (hskip.step (hfirst.step (hnext.step ((agrees_eat ',' r).step (.pure _ r))))) hshorter ?_
      exact hothers
    · rw [if_neg hcomma]
      have hclose : Agrees source depth (expect close what) _ _ := agrees_expect close what (Cadence.skipBlanks rest)
      cases hmark : outcome (mark close what (Cadence.skipBlanks rest)) with
      | error c =>
        rw [hmark] at hclose
        refine Agrees.loop_fail (hskip.step (hfirst.step (hnext.step ((agrees_eat_of_ne hcomma).step ?_))))
        exact hclose.fail
      | ok q =>
        rw [hmark] at hclose
        refine Agrees.loop_done (hskip.step (hfirst.step (hnext.step ((agrees_eat_of_ne hcomma).step ?_))))
        exact hclose.step (.pure _ _)
termination_by s.length

/-- A row is closed at once, or has elements. -/
theorem outcome_delimited (s : List Char) :
    outcome (Cadence.delimited element close what s) =
      if (Cadence.skipBlanks s).head? = some close then .ok ([], (Cadence.skipBlanks s).tail)
      else outcome (Cadence.elements element close what (Cadence.skipBlanks s)) := by
  have hagain : outcome (Cadence.elements element close what s)
      = outcome (Cadence.elements element close what (Cadence.skipBlanks s)) := by
    rw [outcome_elements, outcome_elements, ← (blanks_skipBlanks s).skipBlanks_eq]
  rw [← hagain]
  unfold Cadence.delimited
  split
  · next c r heq =>
    conv_rhs => rw [heq]
    by_cases hclose : c = close
    · have hhead : (c :: r).head? = some close := congrArg some hclose
      rw [if_pos hclose, if_pos hhead]
      rfl
    · have hhead : (c :: r).head? ≠ some close := fun h => hclose (Option.some.inj h)
      rw [if_neg hclose, if_neg hhead]
  · next heq =>
    conv_rhs => rw [heq]
    rfl

theorem Tracks.row (helement : Tracks source depth scan element) :
    Tracks source depth (Scan.row scan close what) (Cadence.delimited element close what) := by
  intro s
  rw [outcome_delimited]
  refine (agrees_skipBlanks s).step ?_
  by_cases hclose : (Cadence.skipBlanks s).head? = some close
  · rw [if_pos hclose]
    obtain ⟨r, hr⟩ := List.head?_eq_some_iff.1 hclose
    rw [hr]
    exact (agrees_eat close r).step (.pure [] r)
  · rw [if_neg hclose]
    refine (agrees_eat_of_ne hclose).step ?_
    have helements : Agrees source depth (Scan.elements scan close what []) _ _ :=
      helement.elements [] (Cadence.skipBlanks s)
    cases hresult : outcome (Cadence.elements element close what (Cadence.skipBlanks s)) with
    | error c =>
      rw [hresult] at helements
      exact helements
    | ok p =>
      rw [hresult] at helements
      exact helements

end Rows

/-! ## Expressions -/

theorem Tracks.expressionOf {scan : Scan Number} {factor : Production Number} (h : Tracks source depth scan factor) :
    Tracks source depth (Scan.expressionOf scan) (Cadence.expressionOf factor) :=
  h.chain.chain

theorem tracks_factor (levels : Nat) (hlevels : levels + depth = maxNesting) :
    Tracks source depth (Scan.factor levels) (Cadence.factor levels) := by
  induction levels generalizing depth with
  | zero =>
    rw [Nat.zero_add] at hlevels
    subst hlevels
    intro s
    refine (agrees_peek s).step ?_
    rw [Cadence.factor]
    by_cases hopen : s.head? = some '('
    · rw [if_pos hopen, if_pos hopen]
      exact agrees_nested_of_tooDeep _ s
    · rw [if_neg hopen, if_neg hopen]
      exact agrees_numberLiteral true s
  | succ levels ih =>
    intro s
    refine (agrees_peek s).step ?_
    by_cases hopen : s.head? = some '('
    · obtain ⟨r, rfl⟩ := List.head?_eq_some_iff.1 hopen
      rw [if_pos hopen, Cadence.factor]
      have hlevels' : levels + (depth + 1) = maxNesting := by omega
      have hinner := (ih hlevels').expressionOf (Cadence.skipBlanks r)
      refine agrees_nested (by omega) ((agrees_bump_cons '(' r).step ((agrees_skipBlanks r).step ?_))
      refine hinner.bind fun inner _ => (agrees_skipBlanks inner.rest).step ?_
      exact (agrees_expect ')' .parenthesisEnd _).bind fun close _ => .pure inner.value close.rest
    · rw [if_neg hopen, Cadence.factor]
      · exact agrees_numberLiteral true s
      · rintro r rfl
        exact hopen rfl

theorem tracks_expression (levels : Nat) (hlevels : levels + depth = maxNesting) :
    Tracks source depth (Scan.expression levels) (Cadence.expression levels) :=
  (tracks_factor levels hlevels).expressionOf

/-! ## Calls and arguments -/

/-- A scan does what the production for the inside of brackets does, if a level is left for it. -/
def TracksInside (source : List Char) (depth : Nat) (scan : Scan Argument) : Option (Production Argument) → Prop
  | none => depth = maxNesting
  | some production => depth < maxNesting ∧ Tracks source (depth + 1) scan production

section Inner

variable {scan : Scan Argument} {inner : Option (Production Argument)}

theorem agrees_argumentList (h : TracksInside source depth scan inner) (called s : List Char) :
    Agrees source depth
      (nested do
        expect '(' (.argumentList called)
        row scan ')' .argumentListEnd) s (outcome (argumentList inner called s)) := by
  cases inner with
  | none =>
    cases h
    exact agrees_nested_of_tooDeep _ s
  | some argument =>
    obtain ⟨hdepth, hargument⟩ := h
    refine agrees_nested hdepth ((agrees_expect '(' _ s).bind fun opening _ => ?_)
    rw [outcome_bind_pure]
    exact hargument.row opening.rest

theorem agrees_callOf (h : TracksInside source depth scan inner) {c : Char} (hc : c.isAlpha = true)
    (what : Expectation) (r : List Char) :
    Agrees source depth (callOf scan) (c :: r) (outcome (Cadence.callOf inner what (c :: r))) := by
  refine (agrees_identifier hc what r).bind fun called _ => (agrees_skipBlanks called.rest).step ?_
  exact (agrees_argumentList h called.value _).bind fun arguments _ => .pure _ arguments.rest

theorem agrees_word (h : TracksInside source depth scan inner) {c : Char} (hc : c.isAlpha = true) (r : List Char) :
    Agrees source depth (word scan) (c :: r) (outcome (Cadence.word inner (c :: r))) := by
  refine .of_suffix fun hs => (agrees_offset (c :: r)).step ?_
  refine (agrees_identifier hc .argument r).bind fun found hfound => ?_
  have hrest : found.rest <:+ source := by
    obtain ⟨_, heq⟩ := isName_of_name hfound
    exact List.IsSuffix.trans ⟨found.value, heq.symm⟩ hs
  refine (agrees_offset _).step ((agrees_skipBlanks found.rest).step ((agrees_peek _).step ?_))
  by_cases hopen : (Cadence.skipBlanks found.rest).head? = some '('
  · rw [if_pos hopen, if_pos hopen]
    exact (agrees_moveTo hs).step ((agrees_callOf h hc .argument r).bind fun call _ => .pure _ call.rest)
  · rw [if_neg hopen, if_neg hopen]
    refine (agrees_moveTo hrest).step ?_
    by_cases htrue : found.value = ['t', 'r', 'u', 'e']
    · rw [if_pos htrue, if_pos htrue]
      exact .pure _ found.rest
    · rw [if_neg htrue, if_neg htrue]
      by_cases hfalse : found.value = ['f', 'a', 'l', 's', 'e']
      · rw [if_pos hfalse, if_pos hfalse]
        exact .pure _ found.rest
      · rw [if_neg hfalse, if_neg hfalse]
        exact agrees_refuse hs rfl

theorem Tracks.entry {argument : Production Argument} (h : Tracks source depth scan argument) :
    Tracks source depth (Scan.entry scan) (Cadence.entry argument) := by
  intro s
  refine (h s).bind fun key _ => (agrees_skipBlanks key.rest).step ?_
  refine (agrees_expect ':' .mapColon _).bind fun colon _ => (agrees_skipBlanks colon.rest).step ?_
  exact (h _).bind fun value _ => .pure (key.value, value.value) value.rest

theorem tracks_argumentOf (h : TracksInside source depth scan inner) {number : Production Number}
    {numberScan : Scan Number} (hnumber : Tracks source depth numberScan number) :
    Tracks source depth (Scan.argumentOf scan numberScan) (Cadence.argumentOf inner number) := by
  intro s
  refine (agrees_peek s).step ?_
  cases s with
  | nil => exact agrees_unexpected .argument []
  | cons c r =>
    rw [List.head?_cons]
    dsimp only
    by_cases hlist : c = '['
    · subst hlist
      rw [if_pos rfl]
      cases inner with
      | none =>
        cases h
        exact agrees_nested_of_tooDeep _ _
      | some argument =>
        obtain ⟨hdepth, hargument⟩ := h
        refine agrees_nested hdepth ((agrees_bump_cons '[' r).step ?_)
        exact (hargument.row r).bind fun items _ => .pure _ items.rest
    · rw [if_neg hlist]
      by_cases hmap : c = '\x7b'
      · subst hmap
        rw [if_pos rfl]
        cases inner with
        | none =>
          cases h
          exact agrees_nested_of_tooDeep _ _
        | some argument =>
          obtain ⟨hdepth, hargument⟩ := h
          refine agrees_nested hdepth ((agrees_bump_cons '\x7b' r).step ?_)
          exact (hargument.entry.row r).bind fun entries _ => .pure _ entries.rest
      · rw [if_neg hmap]
        by_cases hquote : c = '"'
        · subst hquote
          have hquoted : Agrees source depth quoted _ _ := agrees_quoted r
          rw [if_pos rfl, Cadence.argumentOf]
          split
          · next hdecode =>
            rw [hdecode] at hquoted
            exact hquoted.fail
          · next found hdecode =>
            rw [hdecode] at hquoted
            exact hquoted.step (.pure _ found.2)
        · have hopen : c ∉ ['[', '\x7b', '"'] := by
            simp only [List.mem_cons, List.not_mem_nil, or_false, not_or]
            exact ⟨hlist, hmap, hquote⟩
          rw [if_neg hquote, argumentOf_cons hopen]
          by_cases halpha : c.isAlpha = true
          · rw [if_pos halpha, if_pos halpha]
            exact agrees_word h halpha r
          · rw [if_neg halpha, if_neg halpha]
            by_cases hstarts : startsNumber c = true
            · rw [if_pos hstarts, if_pos hstarts]
              exact (hnumber _).bind fun n _ => .pure _ n.rest
            · rw [if_neg hstarts, if_neg hstarts]
              exact agrees_unexpected .argument (c :: r)

end Inner

theorem tracks_argument (levels : Nat) (hlevels : levels + depth = maxNesting) :
    Tracks source depth (Scan.argument levels) (Cadence.argument levels) := by
  induction levels generalizing depth with
  | zero =>
    have hinside : TracksInside source depth astray none := (Nat.zero_add depth).symm.trans hlevels
    exact tracks_argumentOf hinside (tracks_expression 0 hlevels)
  | succ levels ih =>
    have hinside : TracksInside source depth (Scan.argument levels) (some (Cadence.argument levels)) :=
      ⟨by omega, ih (by omega)⟩
    exact tracks_argumentOf hinside (tracks_expression (levels + 1) hlevels)

theorem tracksInside (levels : Nat) (hlevels : levels + depth = maxNesting) :
    TracksInside source depth (inside levels) (argumentInside levels) := by
  cases levels with
  | zero => exact (Nat.zero_add depth).symm.trans hlevels
  | succ levels => exact ⟨by omega, tracks_argument levels (by omega)⟩

theorem agrees_call (levels : Nat) (hlevels : levels + depth = maxNesting) {c : Char} (hc : c.isAlpha = true)
    (what : Expectation) (r : List Char) :
    Agrees source depth (Scan.call levels) (c :: r) (outcome (Cadence.call levels what (c :: r))) := by
  rw [call_eq]
  exact agrees_callOf (tracksInside levels hlevels) hc what r

/-! ## Schedules and statements -/

/-- Where no letter stands there is no call. -/
theorem call_of_not_isAlpha {levels : Nat} {what : Expectation} {s : List Char}
    (h : ¬s.head?.any Char.isAlpha = true) : Cadence.call levels what s = complain (.expected what) s := by
  rw [call_eq]
  cases s with
  | nil => rfl
  | cons c r =>
    have hc : ¬c.isAlpha = true := h
    have hname : name what (c :: r) = complain (.expected what) (c :: r) := if_neg hc
    rw [Cadence.callOf, hname]
    rfl

section Schedules

variable {levels : Nat} {scan : Scan Schedule} {inner : Production Schedule}

theorem tracks_itemOf (hlevels : levels + depth = maxNesting) (h : Tracks source depth scan inner) :
    Tracks source depth (Scan.itemOf scan (Scan.call levels)) (Cadence.itemOf inner (Cadence.call levels .item)) := by
  intro s
  refine (agrees_peek s).step ?_
  cases s with
  | nil => exact agrees_unexpected .item []
  | cons c r =>
    rw [List.head?_cons]
    dsimp only
    by_cases hopen : c = '['
    · subst hopen
      rw [if_pos rfl]
      exact (h _).bind fun nested _ => .pure _ nested.rest
    · rw [if_neg hopen]
      by_cases hplus : c = '+'
      · subst hplus
        rw [if_pos rfl]
        refine (agrees_bump_cons '+' r).step ?_
        exact (agrees_numberLiteral false r).bind fun seconds _ => .pure _ seconds.rest
      · rw [if_neg hplus, Cadence.itemOf]
        · by_cases hnumber : c.isDigit = true ∨ c = '.'
          · have hnumber' : (c.isDigit || c == '.') = true :=
              Bool.or_eq_true_iff.2 (hnumber.imp_right beq_iff_eq.2)
            rw [if_pos hnumber, if_pos hnumber']
            exact (agrees_numberLiteral false _).bind fun seconds _ => .pure _ seconds.rest
          · have hnumber' : ¬(c.isDigit || c == '.') = true :=
              fun h => hnumber ((Bool.or_eq_true_iff.1 h).imp_right beq_iff_eq.1)
            rw [if_neg hnumber, if_neg hnumber']
            by_cases halpha : c.isAlpha = true
            · rw [if_pos halpha]
              exact (agrees_call levels hlevels halpha .item r).bind fun found _ => .pure _ found.rest
            · have hcall : Cadence.call levels .item (c :: r) = complain (.expected .item) (c :: r) :=
                call_of_not_isAlpha halpha
              rw [if_neg halpha, hcall]
              exact agrees_unexpected .item (c :: r)
        · exact hopen
        · exact hplus

theorem tracks_passesOf (hlevels : levels + depth = maxNesting) :
    Tracks source depth (Scan.passesOf (Scan.call levels)) (Cadence.passesOf (Cadence.call levels .passes)) := by
  intro s
  refine (agrees_peek s).step ?_
  cases s with
  | nil => exact agrees_unexpected .passes []
  | cons c r =>
    rw [List.head?_cons]
    dsimp only
    by_cases hstar : c = '*'
    · subst hstar
      rw [if_pos rfl]
      exact (agrees_bump_cons '*' r).step (.pure _ r)
    · rw [if_neg hstar, Cadence.passesOf]
      · by_cases hdigit : c.isDigit = true
        · rw [if_pos hdigit, if_pos hdigit]
          refine .of_suffix fun hs => (agrees_offset _).step ((agrees_takeWhile Char.isDigit (c :: r)).step ?_)
          rw [List.takeWhile_cons_of_pos hdigit, List.dropWhile_cons_of_pos hdigit]
          dsimp only
          by_cases hcount : Nat.ofDigitChars 10 (c :: r.takeWhile Char.isDigit) 0 < UInt64.size
          · rw [if_pos hcount, if_pos hcount]
            exact .pure _ _
          · rw [if_neg hcount, if_neg hcount]
            exact agrees_refuse hs rfl
        · rw [if_neg hdigit, if_neg hdigit]
          by_cases halpha : c.isAlpha = true
          · rw [if_pos halpha]
            exact (agrees_call levels hlevels halpha .passes r).bind fun found _ => .pure _ found.rest
          · have hcall : Cadence.call levels .passes (c :: r) = complain (.expected .passes) (c :: r) :=
              call_of_not_isAlpha halpha
            rw [if_neg halpha, hcall]
            exact agrees_unexpected .passes (c :: r)
      · exact hstar

theorem tracks_scheduleBody (hlevels : levels + depth = maxNesting) (h : Tracks source depth scan inner) :
    Tracks source depth (scheduleBody scan (Scan.call levels)) (Cadence.scheduleOf inner (Cadence.call levels)) := by
  intro s
  refine (agrees_expect '[' .schedule s).bind fun opening _ => ?_
  refine ((tracks_itemOf hlevels h).row opening.rest).bind fun items _ => ?_
  refine (agrees_skipBlanks items.rest).step ?_
  split
  · next r heq =>
    have hcolon : Agrees source depth (eat ':') (Cadence.skipBlanks items.rest) (.ok (true, r)) :=
      heq ▸ agrees_eat ':' r
    refine hcolon.step ((agrees_skipBlanks r).step ?_)
    exact (tracks_passesOf hlevels _).bind fun passes _ => .pure _ passes.rest
  · next hcolon =>
    have hhead : (Cadence.skipBlanks items.rest).head? ≠ some ':' := by
      intro hhead
      obtain ⟨r, hr⟩ := List.head?_eq_some_iff.1 hhead
      exact hcolon r hr
    exact (agrees_eat_of_ne hhead).step (.pure _ _)

end Schedules

theorem tracks_schedule (levels : Nat) (hlevels : levels + depth = maxNesting) :
    Tracks source depth (Scan.schedule levels) (Cadence.schedule levels) := by
  induction levels generalizing depth with
  | zero =>
    rw [Nat.zero_add] at hlevels
    subst hlevels
    exact fun s => agrees_nested_of_tooDeep astray s
  | succ levels ih =>
    have hlevels' : levels + (depth + 1) = maxNesting := by omega
    exact fun s => agrees_nested (by omega) (tracks_scheduleBody hlevels' (ih hlevels') s)

theorem tracks_statement : Tracks source 0 Scan.statement Cadence.statement := by
  intro s
  refine (agrees_peek s).step ?_
  by_cases halpha : s.head?.any Char.isAlpha = true
  · rw [if_pos halpha]
    cases s with
    | nil => cases halpha
    | cons c r =>
      refine (agrees_call maxNesting rfl halpha .action r).bind fun action _ => ?_
      refine (agrees_skipBlanks action.rest).step ((agrees_expect '@' .atSign _).bind fun sign _ => ?_)
      refine (agrees_skipBlanks sign.rest).step ?_
      exact (tracks_schedule maxNesting rfl _).bind fun timing _ => .pure _ timing.rest
  · have hcall : Cadence.call maxNesting .action s = complain (.expected .action) s := call_of_not_isAlpha halpha
    rw [if_neg halpha, Cadence.statement, hcall]
    exact agrees_unexpected .action s

/-! ## Whole texts -/

theorem agrees_atEnd (s : List Char) : Agrees source depth atEnd s (.ok (s.isEmpty, s)) := by
  intro hs
  have hend : decide (utf8Len source ≤ sizeBefore source s) = s.isEmpty := by
    obtain ⟨before, rfl⟩ := hs
    rw [sizeBefore_append, String.utf8Len_append]
    cases s with
    | nil => exact decide_eq_true (Nat.le_refl _)
    | cons c r =>
      have hc := c.utf8Size_pos
      rw [String.utf8Len_cons]
      exact decide_eq_false (by omega)
  refine ⟨hs, ?_⟩
  rw [← hend]
  rfl

/-- A program is a statement, and behind it the end of the text or a program. -/
theorem statements_eq (s : List Char) :
    Cadence.statements s = outcome (Cadence.statement (Cadence.skipBlanks s)) >>= fun p =>
      if (Cadence.skipBlanks p.2).isEmpty then .ok [p.1] else (Cadence.statements p.2).map (p.1 :: ·) := by
  rw [Cadence.statements]
  cases Cadence.statement (Cadence.skipBlanks s) with
  | error c => rfl
  | ok first =>
    have hfirst : outcome (.ok first) = .ok (first.value, first.rest) := rfl
    rw [ok_bind, hfirst, ok_bind]
    dsimp only
    by_cases hempty : (Cadence.skipBlanks first.rest).isEmpty = true
    · rw [if_pos hempty, if_pos hempty]
      rfl
    · rw [if_neg hempty, if_neg hempty]
      cases Cadence.statements first.rest <;> rfl

/-- Statements are taken up to the end of the text. -/
theorem agrees_statements (before : List Statement) (s : List Char) :
    Agrees source 0 (Scan.statements before) (Cadence.skipBlanks s)
      ((Cadence.statements s).map fun l => (before ++ l, [])) := by
  have hfirst : Agrees source 0 Scan.statement _ _ := tracks_statement (Cadence.skipBlanks s)
  rw [statements_eq]
  cases hresult : outcome (Cadence.statement (Cadence.skipBlanks s)) with
  | error c =>
    rw [hresult] at hfirst
    exact Agrees.loop_fail hfirst.fail
  | ok p =>
    obtain ⟨first, rest⟩ := p
    have hlt := rest_lt_of_outcome hresult
    rw [hresult] at hfirst
    rw [ok_bind]
    dsimp only
    have hnext : Agrees source 0 skipBlanks _ _ := agrees_skipBlanks rest
    have hend : Agrees source 0 atEnd _ _ := agrees_atEnd (Cadence.skipBlanks rest)
    by_cases hempty : (Cadence.skipBlanks rest).isEmpty = true
    · rw [if_pos hempty]
      rw [hempty, List.isEmpty_iff.1 hempty] at hend
      rw [List.isEmpty_iff.1 hempty] at hnext
      exact Agrees.loop_done (hfirst.step (hnext.step (hend.step (.pure _ []))))
    · rw [if_neg hempty]
      rw [Bool.eq_false_of_not_eq_true hempty] at hend
      have hshorter : (Cadence.skipBlanks rest).length < (Cadence.skipBlanks s).length :=
        Nat.lt_of_le_of_lt (length_skipBlanks_le rest) hlt
      have hsmaller : rest.length < s.length := Nat.lt_of_lt_of_le hlt (length_skipBlanks_le s)
      have hothers := agrees_statements (before ++ [first]) rest
      have hmap : ((Cadence.statements rest).map (first :: ·)).map (fun l => (before ++ l, ([] : List Char)))
          = (Cadence.statements rest).map fun l => (before ++ [first] ++ l, []) := by
        cases Cadence.statements rest with
        | error c => rfl
        | ok others => exact congrArg (fun l => Except.ok (l, [])) (List.append_cons before first others)
      rw [hmap]
      exact Agrees.loop_more (hfirst.step (hnext.step (hend.step (.pure _ _)))) hshorter hothers
termination_by s.length

theorem agrees_program (s : List Char) :
    Agrees source 0 program s ((Cadence.statements s).map fun l => (l, [])) :=
  (agrees_skipBlanks s).step (agrees_statements [] s)

theorem agrees_whole {scan : Scan α} {production : Production α} (h : Tracks source depth scan production)
    (s : List Char) : Agrees source depth (Scan.whole scan) s ((Cadence.whole production s).map fun a => (a, [])) := by
  have hproduction := h (Cadence.skipBlanks s)
  refine (agrees_skipBlanks s).step ?_
  unfold Cadence.whole
  cases hresult : production (Cadence.skipBlanks s) with
  | error c =>
    rw [hresult] at hproduction
    exact hproduction.fail
  | ok found =>
    rw [hresult] at hproduction
    rw [ok_bind]
    refine hproduction.step ((agrees_skipBlanks found.rest).step ((agrees_atEnd _).step ?_))
    by_cases hempty : (Cadence.skipBlanks found.rest).isEmpty = true
    · rw [if_pos hempty, if_pos hempty, List.isEmpty_iff.1 hempty]
      exact .pure _ []
    · rw [if_neg hempty, if_neg hempty]
      exact agrees_unexpected .inputEnd _

end Scan
end Cadence
