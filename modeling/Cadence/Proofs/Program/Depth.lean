import Cadence.Proofs.Program.Concatenation
import Cadence.Proofs.Program.Ways

/-!
# Where nesting is too deep

Where a production complains of too deep nesting, there is a way into the part that it reads on which no level is left
(`Locates`), and at its end stands one bracket more. Only an item and the passes of a schedule, which may be calls,
complain behind a name too, whatever stands there (`call_locates`, `schedule_of_name`). The productions are taken in
the order in which they are defined, as for `Sound`.
-/

namespace Cadence

variable {α β : Type}

/-! ## Complaints and ways -/

/-- On the way into a part no level is left for what stands at the second text. -/
def RunsOut (c : Category) (levels : Nat) (s rest : List Char) : Prop :=
  ∃ opened d t, WayIn c levels s opened d 0 t ∧ (Exceeds d t rest ∨ LacksArguments d t rest)

theorem RunsOut.of_exceeds {c : Category} {s rest : List Char} (h : Exceeds c s rest) : RunsOut c 0 s rest :=
  ⟨[], c, s, .here, .inl h⟩

theorem RunsOut.of_lacksArguments {c : Category} {s rest : List Char} (h : LacksArguments c s rest) :
    RunsOut c 0 s rest :=
  ⟨[], c, s, .here, .inr h⟩

theorem RunsOut.of_holds {c d : Category} {m n : Nat} {s t rest : List Char} {opened : List (List Char)}
    (hholds : Holds c m s opened d n t) (h : RunsOut d n t rest) : RunsOut c m s rest := by
  obtain ⟨others, e, u, hway, hend⟩ := h
  exact ⟨opened ++ others, e, u, .into hholds hway, hend⟩

/-- Where a production complains of too deep nesting, no level is left on the way into the part that it reads. -/
def Locates (c : Category) (levels : Nat) (production : Production α) : Prop :=
  ∀ s rest, production s = .error ⟨.tooDeep, rest⟩ → RunsOut c levels s rest

/-- A production in two parts complains if one of them does. -/
theorem bind_eq_error {bound : Nat} {result : Except Complaint (Reading α bound)}
    {f : Reading α bound → Except Complaint β} {c : Complaint} (h : (result >>= f) = .error c) :
    result = .error c ∨
      ∃ value rest, ∃ hlt : rest.length < bound, result = .ok ⟨value, rest, hlt⟩ ∧ f ⟨value, rest, hlt⟩ = .error c := by
  cases result with
  | error e =>
    cases h
    exact .inl rfl
  | ok found => exact .inr ⟨found.value, found.rest, found.rest_lt, rfl, h⟩

theorem bind_of_error {bound : Nat} {result : Except Complaint (Reading α bound)} {c : Complaint}
    (h : result = .error c) (f : Reading α bound → Except Complaint β) : (result >>= f) = .error c := by
  rw [h]
  rfl

theorem not_tooDeep_of_mark {c : Char} {what : Expectation} {s rest : List Char} :
    mark c what s ≠ .error ⟨.tooDeep, rest⟩ := by
  intro h
  cases s with
  | nil => cases h
  | cons d r =>
    by_cases hd : d = c
    · have hread : mark c what (d :: r) = .ok ⟨(), r, Nat.lt_succ_self _⟩ := if_pos hd
      rw [hread] at h
      cases h
    · have hread : mark c what (d :: r) = complain (.expected what) (d :: r) := if_neg hd
      rw [hread] at h
      cases h

theorem not_tooDeep_of_name {what : Expectation} {s rest : List Char} : name what s ≠ .error ⟨.tooDeep, rest⟩ := by
  intro h
  cases s with
  | nil => cases h
  | cons c r =>
    rw [name] at h
    split at h
    · cases h
    · cases h

theorem not_tooDeep_of_numberLiteral {signed : Bool} {s rest : List Char} :
    numberLiteral signed s ≠ .error ⟨.tooDeep, rest⟩ := by
  intro h
  unfold numberLiteral at h
  dsimp only at h
  split at h
  · cases h
  split at h
  · split at h
    · split at h
      · cases h
      · cases h
    · split at h
      · cases h
      · cases h
  · cases h

/-! ## Chains and rows -/

section Chains

variable {operator? : Char → Option Operator} {operand : Production Number}
  {P Q : List Char → Number → List Char → Prop}

/-- The rest of a chain complains of too deep nesting if one of its operands does. -/
theorem chainFrom_tooDeep (hchain : ChainOf operator? P Q) (hoperand : Sound P operand) {text t : List Char}
    {value : Number} (hvalue : Q text value t) {s : List Char} (hblanks : Blanks t s) {rest : List Char}
    (h : chainFrom operator? operand value s = .error ⟨.tooDeep, rest⟩) :
    ∃ a u c op v w, Q text a u ∧ Blanks u (c :: v) ∧ operator? c = some op ∧ Blanks v w ∧
      operand w = .error ⟨.tooDeep, rest⟩ := by
  have hskip : Blanks t (skipBlanks s) := hblanks.trans (blanks_skipBlanks s)
  rw [chainFrom] at h
  split at h
  · cases h
  · next c r heq =>
    rw [heq] at hskip
    dsimp only at h
    split at h
    · cases h
    · next op hop =>
      rcases bind_eq_error h with hright | ⟨right, rest', hlt, hright, h⟩
      · exact ⟨value, t, c, op, r, _, hvalue, hskip, hop, blanks_skipBlanks r, hright⟩
      · obtain ⟨v, hv, hrest⟩ := hoperand _ _ hright
        dsimp only at h
        split at h
        · cases h
        · next result hresult =>
          have hshorter : rest'.length < s.length := by
            have hr := length_skipBlanks_le r
            have hs := length_skipBlanks_le s
            rw [heq, List.length_cons] at hs
            omega
          have hnext := hchain.step hvalue hskip hop (blanks_skipBlanks r) hv hresult
          rcases bind_eq_error h with hall | ⟨_, _, _, _, h⟩
          · exact chainFrom_tooDeep hchain hoperand hnext hrest hall
          · cases h
termination_by s.length

theorem chain_tooDeep (hchain : ChainOf operator? P Q) (hoperand : Sound P operand) {s rest : List Char}
    (h : chain operator? operand s = .error ⟨.tooDeep, rest⟩) :
    operand s = .error ⟨.tooDeep, rest⟩ ∨
      ∃ a u c op v w, Q s a u ∧ Blanks u (c :: v) ∧ operator? c = some op ∧ Blanks v w ∧
        operand w = .error ⟨.tooDeep, rest⟩ := by
  rcases bind_eq_error h with hfirst | ⟨first, rest', hlt, hfirst, h⟩
  · exact .inl hfirst
  · obtain ⟨t, ht, hblanks⟩ := hoperand _ _ hfirst
    rcases bind_eq_error h with hall | ⟨_, _, _, _, h⟩
    · exact .inr (chainFrom_tooDeep hchain hoperand (hchain.single ht) hblanks hall)
    · cases h

end Chains

section Rows

variable {e : Element} {element : Production e.Value} {close : Char} {what : Expectation} {levels : Nat}

theorem elements_locates (hsound : Sound (Derives (.element e) levels) element)
    (hlocates : Locates (.element e) levels element) (s rest : List Char)
    (h : elements element close what s = .error ⟨.tooDeep, rest⟩) : RunsOut (.elements e close) levels s rest := by
  rw [elements] at h
  rcases bind_eq_error h with hfirst | ⟨first, rest', hlt, hfirst, h⟩
  · exact .of_holds (.first (blanks_skipBlanks s)) (hlocates _ _ hfirst)
  · obtain ⟨t, ht, hblanks⟩ := hsound _ _ hfirst
    have hskip : Blanks t (skipBlanks rest') := hblanks.trans (blanks_skipBlanks rest')
    dsimp only at h
    split at h
    · cases h
    · next c r heq =>
      split at h
      · next hc =>
        rw [heq, hc] at hskip
        have hshorter : r.length < s.length := by
          have hs := length_skipBlanks_le s
          have hrest := length_skipBlanks_le rest'
          rw [heq, List.length_cons] at hrest
          omega
        rcases bind_eq_error h with hothers | ⟨_, _, _, _, h⟩
        · exact .of_holds (.others (blanks_skipBlanks s) ht hskip) (elements_locates hsound hlocates r rest hothers)
        · cases h
      · split at h
        · cases h
        · cases h
termination_by s.length

theorem delimited_locates (hsound : Sound (Derives (.element e) levels) element)
    (hlocates : Locates (.element e) levels element) :
    Locates (.row e close) levels (delimited element close what) := by
  have hsome : ∀ s rest, elements element close what s = .error ⟨.tooDeep, rest⟩ →
      RunsOut (.row e close) levels s rest :=
    fun s rest h => .of_holds .elements (elements_locates hsound hlocates s rest h)
  intro s rest h
  unfold delimited at h
  split at h
  · split at h
    · cases h
    · exact hsome s rest h
  · exact hsome s rest h

end Rows

/-! ## Expressions -/

theorem expression_locates_of_factor {levels : Nat} (h : Locates .factor levels (factor levels)) :
    Locates .expression levels (expression levels) := by
  have hproducts : ChainOf multiplicative? (Derives .factor levels) (Derives .term levels) := ⟨.factor, .multiplied⟩
  have hsums : ChainOf additive? (Derives .term levels) (Derives .expression levels) := ⟨.term, .added⟩
  have hfactor := factor_sound levels
  have hterm : Locates .term levels (chain multiplicative? (factor levels)) := by
    intro s rest hterm
    rcases chain_tooDeep hproducts hfactor hterm with hfirst | ⟨a, u, c, op, v, w, ha, hc, hop, hv, hnext⟩
    · exact .of_holds .firstFactor (h _ _ hfirst)
    · exact .of_holds (.nextFactor ha hc hop hv) (h _ _ hnext)
  intro s rest hexpression
  rcases chain_tooDeep hsums (chain_sound hproducts hfactor) hexpression with
    hfirst | ⟨a, u, c, op, v, w, ha, hc, hop, hv, hnext⟩
  · exact .of_holds .firstTerm (hterm _ _ hfirst)
  · exact .of_holds (.nextTerm ha hc hop hv) (hterm _ _ hnext)

theorem factor_locates (levels : Nat) : Locates .factor levels (factor levels) := by
  induction levels with
  | zero =>
    intro s rest h
    rw [factor] at h
    split at h
    · next hparenthesis =>
      cases h
      obtain ⟨r, rfl⟩ := List.head?_eq_some_iff.1 hparenthesis
      exact .of_exceeds .parentheses
    · exact absurd h not_tooDeep_of_numberLiteral
  | succ levels ih =>
    intro s rest h
    rcases s with _ | ⟨c, r⟩
    · cases h
    by_cases hc : c = '('
    · subst hc
      rw [factor] at h
      rcases bind_eq_error h with hinner | ⟨_, _, _, _, h⟩
      · exact .of_holds (.parentheses (blanks_skipBlanks r)) (expression_locates_of_factor ih _ _ hinner)
      · rcases bind_eq_error h with hclose | ⟨_, _, _, _, h⟩
        · exact absurd hclose not_tooDeep_of_mark
        · cases h
    · rw [factor_of_ne hc] at h
      exact absurd h not_tooDeep_of_numberLiteral

theorem expression_locates (levels : Nat) : Locates .expression levels (expression levels) :=
  expression_locates_of_factor (factor_locates levels)

/-! ## Calls and arguments -/

/-- The production for what stands inside brackets, if a level is left, locates its complaints with one level less. -/
def InnerLocates (levels : Nat) : Option (Production Argument) → Prop
  | none => levels = 0
  | some argument => ∃ left, levels = left + 1 ∧ Sound (Derives (.element .argument) left) argument ∧
    Locates (.element .argument) left argument

theorem InnerLocates.sound {levels : Nat} {inner : Option (Production Argument)} (h : InnerLocates levels inner) :
    InnerSound levels inner := by
  rintro argument ⟨⟩
  obtain ⟨left, hleft, hsound, _⟩ := h
  exact ⟨left, hleft, hsound⟩

/-- A name that is read goes as far as it can. -/
theorem endsName_of_name {what : Expectation} {s : List Char} {found : Reading (List Char) s.length}
    (h : name what s = .ok found) : EndsName found.rest := by
  cases s with
  | nil => cases h
  | cons c r =>
    simp only [name] at h
    split at h
    · cases h
      intro d hd
      have hhead := List.head?_dropWhile_not isNamePart r
      rwa [show (r.dropWhile isNamePart).head? = some d from hd] at hhead
    · cases h

theorem notCalled_of_name {what : Expectation} {s t rest called : List Char} {hlt : t.length < s.length}
    (h : name what s = .ok ⟨called, t, hlt⟩) (hrest : rest = skipBlanks t) (hopening : rest.head? ≠ some '(') :
    NotCalled s rest := by
  obtain ⟨hname, hs⟩ := isName_of_name h
  exact ⟨called, t, hname, endsName_of_name h, hs, hrest, hopening⟩

section Inner

variable {levels : Nat} {inner : Option (Production Argument)}

/-- A call complains of too deep nesting behind its name, if no level is left, or within its arguments. -/
theorem callOf_tooDeep (hinner : InnerLocates levels inner) {what : Expectation} {s rest : List Char}
    (h : callOf inner what s = .error ⟨.tooDeep, rest⟩) :
    RunsOut .call levels s rest ∨ levels = 0 ∧
      ∃ called t hlt, name what s = .ok ⟨called, t, hlt⟩ ∧ rest = skipBlanks t ∧ rest.head? ≠ some '(' := by
  rcases bind_eq_error h with hname | ⟨called, t, hlt, hcalled, h⟩
  · exact absurd hname not_tooDeep_of_name
  obtain ⟨hname, hs⟩ := isName_of_name hcalled
  rcases bind_eq_error h with harguments | ⟨_, _, _, _, h⟩
  · dsimp only at hname hs harguments
    cases inner with
    | none =>
      obtain rfl : levels = 0 := hinner
      cases harguments
      by_cases hopening : (skipBlanks t).head? = some '('
      · obtain ⟨u, hu⟩ := List.head?_eq_some_iff.1 hopening
        rw [hs, hu]
        exact .inl (.of_exceeds (.arguments hname (hu ▸ blanks_skipBlanks t)))
      · exact .inr ⟨rfl, called, t, hlt, hcalled, rfl, hopening⟩
    | some argument =>
      obtain ⟨left, rfl, hsound, hlocates⟩ := hinner
      rcases bind_eq_error harguments with hopening | ⟨_, u, hlt', hopening, harguments⟩
      · exact absurd hopening not_tooDeep_of_mark
      · have hu := eq_cons_of_mark hopening
        rcases bind_eq_error harguments with hrow | ⟨_, _, _, _, harguments⟩
        · rw [hs]
          exact .inl (.of_holds (.arguments hname (hu ▸ blanks_skipBlanks t))
            (delimited_locates hsound hlocates _ _ hrow))
        · cases harguments
  · cases h

theorem word_locates (hinner : InnerLocates levels inner) :
    Locates (.element .argument) levels (word inner) := by
  intro s rest h
  rcases bind_eq_error h with hname | ⟨called, t, hlt, hcalled, h⟩
  · exact absurd hname not_tooDeep_of_name
  obtain ⟨hname, hs⟩ := isName_of_name hcalled
  dsimp only at h hs hname
  split at h
  · next hopening =>
    obtain ⟨u, hu⟩ := List.head?_eq_some_iff.1 hopening
    rcases bind_eq_error h with hcall | ⟨_, _, _, _, h⟩
    · rcases callOf_tooDeep hinner hcall with hruns | ⟨_, called', t', hlt', hcalled', rfl, hlacks⟩
      · subst hs
        exact .of_holds (.calledArgument hname (hu ▸ blanks_skipBlanks t)) hruns
      · -- the parenthesis that was seen stands behind the name that is called
        rw [hcalled] at hcalled'
        cases hcalled'
        exact absurd hopening hlacks
    · cases h
  · split at h
    · cases h
    · split at h
      · cases h
      · cases h

theorem entry_locates {argument : Production Argument} (hsound : Sound (Derives (.element .argument) levels) argument)
    (hlocates : Locates (.element .argument) levels argument) :
    Locates (.element .entry) levels (entry argument) := by
  intro s rest h
  rcases bind_eq_error h with hkey | ⟨key, t, hlt, hkey, h⟩
  · exact .of_holds .key (hlocates _ _ hkey)
  · obtain ⟨u, hu, hblanks⟩ := hsound _ _ hkey
    rcases bind_eq_error h with hcolon | ⟨_, r, hlt', hcolon, h⟩
    · exact absurd hcolon not_tooDeep_of_mark
    · have hcolon := eq_cons_of_mark hcolon
      rcases bind_eq_error h with hvalue | ⟨_, _, _, _, h⟩
      · exact .of_holds (.value hu (hcolon ▸ hblanks.trans (blanks_skipBlanks t)) (blanks_skipBlanks r))
          (hlocates _ _ hvalue)
      · cases h

theorem argumentOf_locates (hinner : InnerLocates levels inner) {number : Production Number}
    (hnumber : Locates .expression levels number) :
    Locates (.element .argument) levels (argumentOf inner number) := by
  intro s rest h
  unfold argumentOf at h
  split at h
  · cases h
  · -- a list
    split at h
    · obtain rfl : levels = 0 := hinner
      cases h
      exact .of_exceeds .list
    · obtain ⟨left, rfl, hsound, hlocates⟩ := hinner
      rcases bind_eq_error h with hitems | ⟨_, _, _, _, h⟩
      · exact .of_holds .list (delimited_locates hsound hlocates _ _ hitems)
      · cases h
  · -- a map
    split at h
    · obtain rfl : levels = 0 := hinner
      cases h
      exact .of_exceeds .map
    · obtain ⟨left, rfl, hsound, hlocates⟩ := hinner
      rcases bind_eq_error h with hentries | ⟨_, _, _, _, h⟩
      · exact .of_holds .map (delimited_locates (e := .entry) (entry_sound hsound) (entry_locates hsound hlocates)
          _ _ hentries)
      · cases h
  · -- a string
    split at h
    · cases h
    · cases h
  · -- a name, or a number
    split at h
    · exact word_locates hinner _ _ h
    · split at h
      · rcases bind_eq_error h with hn | ⟨_, _, _, _, h⟩
        · exact .of_holds .numberArgument (hnumber _ _ hn)
        · cases h
      · cases h

end Inner

theorem argument_locates (levels : Nat) : Locates (.element .argument) levels (argument levels) := by
  induction levels with
  | zero =>
    have hinner : InnerLocates 0 none := rfl
    exact argumentOf_locates hinner (expression_locates 0)
  | succ levels ih =>
    have hinner : InnerLocates (levels + 1) (some (argument levels)) := ⟨levels, rfl, argument_sound levels, ih⟩
    exact argumentOf_locates hinner (expression_locates (levels + 1))

theorem argumentInside_locates (levels : Nat) : InnerLocates levels (argumentInside levels) := by
  cases levels with
  | zero => rfl
  | succ levels => exact ⟨levels, rfl, argument_sound levels, argument_locates levels⟩

/-- Where a call may stand and something else too, a name may lack its arguments. -/
theorem call_locates {c : Category} {levels : Nat} (hholds : ∀ s, Holds c levels s [] .call levels s)
    (hlacks : ∀ s rest, NotCalled s rest → LacksArguments c s rest) (what : Expectation) :
    Locates c levels (call levels what) := by
  intro s rest h
  rw [call_eq] at h
  rcases callOf_tooDeep (argumentInside_locates levels) h with hruns | ⟨rfl, called, t, hlt, hname, hrest, hopening⟩
  · exact .of_holds (hholds s) hruns
  · exact .of_lacksArguments (hlacks s rest (notCalled_of_name hname hrest hopening))

/-! ## Schedules and statements -/

section Schedules

variable {levels : Nat}

theorem itemOf_locates {inner : Production Schedule} (hinner : ∀ r rest, inner ('[' :: r) = .error ⟨.tooDeep, rest⟩ →
    RunsOut .schedule levels ('[' :: r) rest) : Locates (.element .item) levels (itemOf inner (call levels .item)) := by
  intro s rest h
  unfold itemOf at h
  split at h
  · cases h
  · rcases bind_eq_error h with hnested | ⟨_, _, _, _, h⟩
    · exact .of_holds .innerSchedule (hinner _ _ hnested)
    · cases h
  · rcases bind_eq_error h with hseconds | ⟨_, _, _, _, h⟩
    · exact absurd hseconds not_tooDeep_of_numberLiteral
    · cases h
  · split at h
    · rcases bind_eq_error h with hseconds | ⟨_, _, _, _, h⟩
      · exact absurd hseconds not_tooDeep_of_numberLiteral
      · cases h
    · rcases bind_eq_error h with hcall | ⟨_, _, _, _, h⟩
      · exact call_locates (fun _ => .calledInterval) (fun _ _ => .item) .item _ _ hcall
      · cases h

theorem passesOf_locates : Locates .passes levels (passesOf (call levels .passes)) := by
  intro s rest h
  unfold passesOf at h
  split at h
  · cases h
  · cases h
  · split at h
    · dsimp only at h
      split at h
      · cases h
      · cases h
    · rcases bind_eq_error h with hcall | ⟨_, _, _, _, h⟩
      · exact call_locates (fun _ => .calledPasses) (fun _ _ => .passes) .passes _ _ hcall
      · cases h

theorem scheduleOf_locates {inner : Production Schedule} (hsound : Sound (Derives .schedule levels) inner)
    (hinner : ∀ r rest, inner ('[' :: r) = .error ⟨.tooDeep, rest⟩ → RunsOut .schedule levels ('[' :: r) rest) :
    Locates .schedule (levels + 1) (scheduleOf inner (call levels)) := by
  intro s rest h
  rcases bind_eq_error h with hopening | ⟨_, r, hlt, hopening, h⟩
  · exact absurd hopening not_tooDeep_of_mark
  have hs := eq_cons_of_mark hopening
  dsimp only at hs h
  subst hs
  have hitem := itemOf_sound hsound (call_sound levels .item)
  rcases bind_eq_error h with hitems | ⟨items, t, hlt', hitems, h⟩
  · exact .of_holds .items (delimited_locates (e := .item) hitem (itemOf_locates hinner) _ _ hitems)
  obtain ⟨u, hu, hblanks⟩ := delimited_sound (e := .item) hitem _ _ hitems
  have hskip : Blanks u (skipBlanks t) := hblanks.trans (blanks_skipBlanks t)
  dsimp only at h
  split at h
  · next r' heq =>
    rcases bind_eq_error h with hpasses | ⟨_, _, _, _, h⟩
    · exact .of_holds (.passes hu (heq ▸ hskip) (blanks_skipBlanks r')) (passesOf_locates _ _ hpasses)
    · cases h
  · cases h

end Schedules

/-- A schedule that begins with its bracket locates its complaints of too deep nesting. -/
theorem schedule_locates_of_opening (levels : Nat) (r rest : List Char)
    (h : schedule levels ('[' :: r) = .error ⟨.tooDeep, rest⟩) : RunsOut .schedule levels ('[' :: r) rest := by
  induction levels generalizing r rest with
  | zero =>
    cases h
    exact .of_exceeds .schedule
  | succ levels ih => exact scheduleOf_locates (schedule_sound levels) ih _ _ h

theorem schedule_locates (levels : Nat) : Locates .schedule (levels + 1) (schedule (levels + 1)) :=
  scheduleOf_locates (schedule_sound levels) (schedule_locates_of_opening levels)

/-! ## Texts as a whole -/

/-- The parts of the statements of a text that stand in no bracket. -/
inductive StatementPart : List Char → Category → List Char → Prop
  | action {s t : List Char} : Blanks s t → StatementPart s .call t
  | schedule {action : Call} {s t u v w : List Char} :
    Blanks s t → Derives .call maxNesting t action u → Blanks u ('@' :: v) → Blanks v w → StatementPart s .schedule w
  | next {a : Statement} {c : Category} {s t u v : List Char} :
    Blanks s t → StatementText t a u → StatementPart u c v → StatementPart s c v

/-- The only part of a text that is of the category as a whole. -/
inductive WholePart (c : Category) (s : List Char) : Category → List Char → Prop
  | whole {t : List Char} : Blanks s t → WholePart c s c t

theorem StatementPart.of_blanks {r s t : List Char} {c : Category} (h : StatementPart s c t) (hs : Blanks r s) :
    StatementPart r c t := by
  cases h with
  | action ht => exact .action (hs.trans ht)
  | schedule ht ha hsign hv => exact .schedule (hs.trans ht) ha hsign hv
  | next ht ha hpart => exact .next (hs.trans ht) ha hpart

theorem StatementPart.suffix {s t : List Char} {c : Category} (h : StatementPart s c t) : t <:+ s := by
  induction h with
  | action hs => exact hs.suffix
  | schedule hs ha hsign hw =>
    exact hw.suffix.trans ((suffix_of_cons hsign.suffix).trans (ha.suffix.trans hs.suffix))
  | next hs ha _ ih =>
    cases ha with
    | intro haction hsign hv hschedule =>
      exact ih.trans (hschedule.suffix.trans (hv.suffix.trans ((suffix_of_cons hsign.suffix).trans
        (haction.suffix.trans hs.suffix))))

theorem WholePart.suffix {c d : Category} {s t : List Char} (h : WholePart c s d t) : t <:+ s := by
  cases h with
  | whole hs => exact hs.suffix

theorem statement_tooDeep {s t rest : List Char} (hs : Blanks s t) (h : statement t = .error ⟨.tooDeep, rest⟩) :
    ∃ c u, StatementPart s c u ∧ RunsOut c maxNesting u rest := by
  rcases bind_eq_error h with haction | ⟨action, u, hlt, haction, h⟩
  · rw [call_eq] at haction
    rcases callOf_tooDeep (argumentInside_locates maxNesting) haction with hruns | ⟨hlevels, _⟩
    · exact ⟨.call, t, .action hs, hruns⟩
    · exact absurd hlevels (by decide)
  · obtain ⟨v, hv, hblanks⟩ := call_sound maxNesting .action _ _ haction
    rcases bind_eq_error h with hsign | ⟨_, r, hlt', hsign, h⟩
    · exact absurd hsign not_tooDeep_of_mark
    · have hsign := eq_cons_of_mark hsign
      rcases bind_eq_error h with htiming | ⟨_, _, _, _, h⟩
      · refine ⟨.schedule, _, ?_, schedule_locates 255 _ _ htiming⟩
        exact .schedule hs hv (hsign ▸ hblanks.trans (blanks_skipBlanks u)) (blanks_skipBlanks r)
      · cases h

theorem statements_tooDeep {s rest : List Char} (h : statements s = .error ⟨.tooDeep, rest⟩) :
    ∃ c t, StatementPart s c t ∧ RunsOut c maxNesting t rest := by
  rw [statements] at h
  rcases bind_eq_error h with hfirst | ⟨first, u, hlt, hfirst, h⟩
  · exact statement_tooDeep (blanks_skipBlanks s) hfirst
  · obtain ⟨v, hv, hblanks⟩ := statement_sound _ _ hfirst
    dsimp only at h
    split at h
    · cases h
    · cases hothers : statements u with
      | ok others =>
        rw [hothers] at h
        cases h
      | error e =>
        rw [hothers] at h
        cases h
        have hshorter : u.length < s.length := Nat.lt_of_lt_of_le hlt (length_skipBlanks_le s)
        obtain ⟨c, t, hpart, hruns⟩ := statements_tooDeep hothers
        exact ⟨c, t, .next (blanks_skipBlanks s) hv (hpart.of_blanks hblanks), hruns⟩
termination_by s.length

theorem whole_tooDeep {c : Category} {production : Production c.Value} (hlocates : Locates c maxNesting production)
    {s rest : List Char} (h : whole production s = .error ⟨.tooDeep, rest⟩) :
    ∃ d t, WholePart c s d t ∧ RunsOut d maxNesting t rest := by
  rcases bind_eq_error h with hfound | ⟨_, _, _, _, h⟩
  · exact ⟨c, _, .whole (blanks_skipBlanks s), hlocates _ _ hfound⟩
  · dsimp only at h
    split at h
    · cases h
    · cases h

/-! ## The words of the complaint -/

/-- What is put behind a text does not change how it begins. -/
theorem head?_append_of_head? {s : String} {c : Char} (h : s.toList.head? = some c) (t : String) :
    (s ++ t).toList.head? = some c := by
  rw [String.toList_append, List.head?_append, h, Option.some_or]

theorem Expectation.head?_words (what : Expectation) : what.words.toList.head? = some 'e' := by
  cases what with
  | argumentList name => exact head?_append_of_head? (head?_append_of_head? (by decide) _) _
  | _ => decide

/-- The words for no other fault begin as those for too deep nesting. -/
theorem Fault.head?_words_ne {fault : Fault} (h : fault ≠ .tooDeep) (found : Option Char) :
    (fault.words found).toList.head? ≠ some 'n' := by
  have hother : ∀ {s : String} {c : Char}, s.toList.head? = some c → c ≠ 'n' → s.toList.head? ≠ some 'n' :=
    fun hs hc hn => hc (Option.some.inj (hs.symm.trans hn))
  cases fault with
  | tooDeep => exact absurd rfl h
  | expected what => exact hother (head?_append_of_head? what.head?_words _) (by decide)
  | passesOutOfRange =>
    exact hother (c := 'r') (head?_append_of_head? (head?_append_of_head? (by decide) _) _) (by decide)
  | numberOutOfRange | integerOutOfRange =>
    exact hother (c := 'i') (head?_append_of_head? (head?_append_of_head? (by decide) _) _) (by decide)
  | strayName =>
    exact hother (c := 'u') (head?_append_of_head? (head?_append_of_head? (by decide) _) _) (by decide)
  | unterminatedString => exact hother (s := "unterminated string literal") (c := 'u') (by decide) (by decide)
  | noDigits => exact hother (s := "expected digits") (c := 'e') (by decide) (by decide)
  | arithmetic fault =>
    have hwords : fault.words.toList.head? ≠ some 'n' := by cases fault <;> decide
    exact hwords

theorem eq_tooDeep_of_words {fault : Fault} {found found' : Option Char}
    (h : fault.words found = Fault.words found' .tooDeep) : fault = .tooDeep := by
  have hdeep : (Fault.words found' .tooDeep).toList.head? = some 'n' :=
    head?_append_of_head? (head?_append_of_head? (by decide) _) _
  refine Classical.byContradiction fun hne => Fault.head?_words_ne hne found ?_
  rw [h, hdeep]

/-! ## A name that is not called -/

/-- A row complains if its first element does. -/
theorem delimited_of_error {element : Production α} {close : Char} {what : Expectation} {s : List Char} {c : Complaint}
    (hclose : (skipBlanks s).head? ≠ some close) (h : element (skipBlanks s) = .error c) :
    delimited element close what s = .error c := by
  have helements : elements element close what s = .error c := by
    rw [elements]
    exact bind_of_error h _
  unfold delimited
  split
  · next d r heq =>
    rw [if_neg]
    · exact helements
    · rintro rfl
      exact hclose (heq ▸ rfl)
  · exact helements

/-- A schedule complains if its first item does. -/
theorem schedule_of_error {levels : Nat} {r : List Char} {c : Complaint} (hskip : skipBlanks r = r)
    (hclose : r.head? ≠ some ']') (h : itemOf (schedule levels) (call levels .item) r = .error c) :
    schedule (levels + 1) ('[' :: r) = .error c := by
  have hitem : itemOf (schedule levels) (call levels .item) (skipBlanks r) = .error c := by
    rw [hskip]
    exact h
  exact bind_of_error (delimited_of_error (hskip.symm ▸ hclose) hitem) _

/-- Where no level is left, an item that is a name is not read, whatever stands behind the name. -/
theorem itemOf_of_name {called r : List Char} (hname : isName called = true) (hr : EndsName r)
    (inner : Production Schedule) : itemOf inner (call 0 .item) (called ++ r) = .error ⟨.tooDeep, skipBlanks r⟩ := by
  obtain ⟨hlt, hread⟩ := (gives_name hname .item hr).ok trivial
  have hcall : call 0 .item (called ++ r) = .error ⟨.tooDeep, skipBlanks r⟩ := by
    rw [call, callOf, hread]
    rfl
  obtain ⟨d, r', rfl, hd⟩ := exists_alpha_of_isName hname
  rw [List.cons_append, itemOf_of_isAlpha hd]
  exact bind_of_error hcall _

/-- Where all levels are taken by schedules, reading stops behind a name, whatever stands there. -/
theorem schedule_of_name {called r : List Char} (hname : isName called = true) (hr : EndsName r) (levels : Nat) :
    schedule (levels + 1) (List.replicate (levels + 1) '[' ++ (called ++ r)) = .error ⟨.tooDeep, skipBlanks r⟩ := by
  induction levels with
  | zero =>
    obtain ⟨d, r', rfl, hd⟩ := exists_alpha_of_isName hname
    refine schedule_of_error ((begins_of_isName hname).skipBlanks r) ?_ (itemOf_of_name hname hr _)
    intro hhead
    rw [Option.some.inj hhead] at hd
    exact absurd hd (by decide)
  | succ levels ih =>
    exact schedule_of_error (skipBlanks_cons (by decide) _) (fun hhead => absurd (Option.some.inj hhead) (by decide))
      (bind_of_error ih _)

/-! ## Places of complaints -/

/-- The error is at a place in the source where so many brackets are open that no level is left, on the way from one of
the given parts; and there stands one bracket more, or a name before it lacks its arguments. -/
def SyntaxError.IsTooDeep (source : List Char) (parts : Category → List Char → Prop) (e : SyntaxError) : Prop :=
  ∃ before rest opened c s d t, source = before ++ rest ∧ e.place = Place.after before ∧
    opened.length = maxNesting ∧ Brackets source opened rest ∧ parts c s ∧ WayIn c maxNesting s opened d 0 t ∧
    (Exceeds d t rest ∧ (∃ b r, rest = b :: r ∧ IsOpening b) ∨ LacksArguments d t rest)

theorem words_tooDeep (found : Option Char) : Fault.words found .tooDeep = "nesting too deep (limit is 256)" := by
  show "nesting too deep (limit is " ++ toString maxNesting ++ ")" = _
  decide +kernel

theorem isTooDeep_of_inSource {source : String} {read : List Char → Except Complaint α} {e : SyntaxError}
    {parts : Category → List Char → Prop} (hparts : ∀ c t, parts c t → t <:+ source.toList)
    (hread : ∀ rest, read source.toList = .error ⟨.tooDeep, rest⟩ →
      ∃ c t, parts c t ∧ RunsOut c maxNesting t rest)
    (h : inSource source read = .error e) (hdetail : e.detail = "nesting too deep (limit is 256)") :
    e.IsTooDeep source.toList parts := by
  obtain ⟨⟨fault, rest⟩, hfault, rfl⟩ := inSource_eq_error_iff.1 h
  obtain rfl := eq_tooDeep_of_words (hdetail.trans (words_tooDeep none).symm)
  obtain ⟨c, s, hpart, opened, d, t, hway, hend⟩ := hread rest hfault
  have hrest : rest <:+ t := hend.elim Exceeds.suffix LacksArguments.suffix
  have hbrackets : Brackets source.toList opened rest := by
    rw [← List.append_nil opened]
    exact (hway.brackets.of_suffix (hparts c s hpart)).append (.none hrest)
  obtain ⟨before, hsource⟩ := hbrackets.suffix
  refine ⟨before, rest, opened, c, s, d, t, hsource.symm, ?_, (Nat.add_zero _).symm.trans hway.length_opened,
    hbrackets, hpart, hway, hend.imp (fun h => ⟨h, h.exists_opening⟩) id⟩
  rw [Complaint.toSyntaxError, Place.ofRest, ← hsource, textBefore_append]

/-- Too deep nesting is complained of where 256 levels of schedules, lists, maps, calls and parentheses are open, with
the passes of a schedule inside it: at the bracket that opens one more, or behind a name that stands as an item or as
passes and is not called. -/
theorem place_of_tooDeep {source : String} {e : SyntaxError} (hdetail : e.detail = "nesting too deep (limit is 256)") :
    (parseProgram source = .error e → e.IsTooDeep source.toList (StatementPart source.toList)) ∧
      (parseSchedule source = .error e → e.IsTooDeep source.toList (WholePart .schedule source.toList)) ∧
      (parseArgument source = .error e → e.IsTooDeep source.toList (WholePart (.element .argument) source.toList)) := by
  refine ⟨fun h => ?_, fun h => ?_, fun h => ?_⟩
  · exact isTooDeep_of_inSource (fun _ _ => StatementPart.suffix) (fun _ => statements_tooDeep) h hdetail
  · exact isTooDeep_of_inSource (fun _ _ => WholePart.suffix) (fun _ => whole_tooDeep (schedule_locates 255)) h hdetail
  · exact isTooDeep_of_inSource (fun _ _ => WholePart.suffix) (fun _ => whole_tooDeep (argument_locates maxNesting)) h
      hdetail

/-- A name in so many schedules, without the parentheses of a call. -/
def Sample.uncalled (levels : Nat) : String :=
  String.ofList (List.replicate levels '[' ++ (['a'] ++ List.replicate levels ']'))

theorem Sample.toList_uncalled (levels : Nat) :
    (uncalled levels).toList = (List.replicate levels '[' ++ ['a']) ++ List.replicate levels ']' := by
  rw [uncalled, String.toList_ofList, List.append_assoc]

theorem Sample.parse_uncalled :
    parseSchedule (uncalled maxNesting)
      = .error ⟨"nesting too deep (limit is 256)", Place.after (List.replicate maxNesting '[' ++ ['a'])⟩ := by
  have hclosers : List.replicate maxNesting ']' = ']' :: List.replicate 255 ']' := rfl
  have hname : isName ['a'] = true := by decide
  have hend : EndsName (List.replicate maxNesting ']') := by
    rw [hclosers]
    rintro _ ⟨⟩
    decide
  have hschedule := schedule_of_name hname hend 255
  rw [hclosers, skipBlanks_cons (by decide), ← hclosers] at hschedule
  have hskip : skipBlanks (uncalled maxNesting).toList
      = List.replicate maxNesting '[' ++ (['a'] ++ List.replicate maxNesting ']') := by
    rw [uncalled, String.toList_ofList]
    exact skipBlanks_cons (by decide) _
  have hread : whole (schedule maxNesting) (uncalled maxNesting).toList
      = .error ⟨.tooDeep, List.replicate maxNesting ']'⟩ := by
    rw [whole, hskip]
    exact bind_of_error hschedule _
  refine inSource_eq_error_iff.2 ⟨_, hread, ?_⟩
  rw [Complaint.toSyntaxError, words_tooDeep, Place.ofRest, toList_uncalled, textBefore_append]

/-- The place behind the name that is not called. -/
theorem place_of_tooDeep_uncalled :
    parseSchedule (Sample.uncalled maxNesting) = .error ⟨"nesting too deep (limit is 256)", ⟨257, 1, 258⟩⟩ ∧
      SyntaxError.IsTooDeep (Sample.uncalled maxNesting).toList
        (WholePart .schedule (Sample.uncalled maxNesting).toList)
        ⟨"nesting too deep (limit is 256)", ⟨257, 1, 258⟩⟩ := by
  have hplace : Place.after (List.replicate maxNesting '[' ++ ['a']) = ⟨257, 1, 258⟩ := by decide +kernel
  have hparse := Sample.parse_uncalled
  rw [hplace] at hparse
  exact ⟨hparse, (place_of_tooDeep rfl).2.1 hparse⟩

/-- A place in a text has one text in front of it. -/
theorem Place.eq_of_after_eq {before before' rest rest' : List Char} (h : before ++ rest = before' ++ rest')
    (hplace : Place.after before = Place.after before') : before = before' := by
  have hsize := congrArg Place.offset hplace
  rw [after_eq, after_eq] at hsize
  dsimp only at hsize
  rw [← frontOfSize_append before rest, h, hsize, frontOfSize_append]

/-- Not every complaint about too deep nesting is at a bracket that opens a level. -/
theorem not_opening_of_tooDeep :
    ¬ ∀ (source : String) (e : SyntaxError), parseSchedule source = .error e →
      e.detail = "nesting too deep (limit is 256)" →
      ∃ before b r, source.toList = before ++ b :: r ∧ e.place = Place.after before ∧ IsOpening b := by
  intro hall
  obtain ⟨before, b, r, hsource, hplace, hb⟩ := hall _ _ Sample.parse_uncalled rfl
  rw [Sample.toList_uncalled] at hsource
  dsimp only at hplace
  generalize List.replicate maxNesting '[' ++ ['a'] = front at hsource hplace
  obtain rfl := Place.eq_of_after_eq hsource hplace
  have hcloser := congrArg List.head? (List.append_cancel_left hsource)
  obtain rfl : ']' = b := Option.some.inj hcloser
  exact absurd hb (by unfold IsOpening; decide)

end Cadence
