import Cadence.Proofs.Program.Grammar

/-!
# What is read derives

Whatever a production reads from the front of a text derives there from the grammar, with the value that was read; what
is left may lack some blanks, since chains and schedules look behind them for what may follow (`Sound`). The productions
are taken in the order in which they are defined: chains (`chain_sound`) and rows (`delimited_sound`) for whatever they
consist of, and those that nest by induction on the levels that are left.
-/

namespace Cadence

variable {α β : Type}

/-- What a production reads is of a kind, up to the blanks behind it. -/
def Sound (P : List Char → α → List Char → Prop) (production : Production α) : Prop :=
  ∀ s (found : Reading α s.length), production s = .ok found → ∃ t, P s found.value t ∧ Blanks t found.rest

/-- A production in two parts reads something if both parts do. -/
theorem exists_of_bind_eq_ok {bound : Nat} {result : Except Complaint (Reading α bound)}
    {f : Reading α bound → Except Complaint β} {b : β} (h : (result >>= f) = .ok b) :
    ∃ value rest, ∃ hlt : rest.length < bound, result = .ok ⟨value, rest, hlt⟩ ∧ f ⟨value, rest, hlt⟩ = .ok b := by
  cases result with
  | error e => cases h
  | ok found => exact ⟨found.value, found.rest, found.rest_lt, rfl, h⟩

theorem eq_cons_of_mark {c : Char} {what : Expectation} {s : List Char} {found : Reading Unit s.length}
    (h : mark c what s = .ok found) : s = c :: found.rest := by
  cases s with
  | nil => cases h
  | cons d r =>
    by_cases hd : d = c
    · have hread : mark c what (d :: r) = .ok ⟨(), r, Nat.lt_succ_self _⟩ := if_pos hd
      rw [hread] at h
      cases h
      rw [hd]
    · have hread : mark c what (d :: r) = complain (.expected what) (d :: r) := if_neg hd
      rw [hread] at h
      cases h

/-! ## Chains and rows -/

/-- Parts of kind `P` with operators between them, worked out from left to right, are of kind `Q`. -/
structure ChainOf (operator? : Char → Option Operator) (P Q : List Char → Number → List Char → Prop) : Prop where
  single : ∀ {n : Number} {s t : List Char}, P s n t → Q s n t
  step : ∀ {a b n : Number} {op : Operator} {c : Char} {s t u v w : List Char}, Q s a t → Blanks t (c :: u) →
    operator? c = some op → Blanks u v → P v b w → a.apply op b = .ok n → Q s n w

section Chains

variable {operator? : Char → Option Operator} {operand : Production Number} {P Q : List Char → Number → List Char → Prop}

/-- What is read as the rest of a chain goes on with the chain that was read before. -/
theorem chainFrom_sound (hchain : ChainOf operator? P Q) (hoperand : Sound P operand) {text t : List Char}
    {value : Number} (hvalue : Q text value t) {s : List Char} (hblanks : Blanks t s)
    {found : Reading Number (s.length + 1)} (h : chainFrom operator? operand value s = .ok found) :
    ∃ u, Q text found.value u ∧ Blanks u found.rest := by
  have hskip : Blanks t (skipBlanks s) := hblanks.trans (blanks_skipBlanks s)
  rw [chainFrom] at h
  split at h
  · next heq =>
    rw [heq] at hskip
    cases h
    exact ⟨t, hvalue, hskip⟩
  · next c r heq =>
    rw [heq] at hskip
    dsimp only at h
    split at h
    · cases h
      exact ⟨t, hvalue, hskip⟩
    · next op hop =>
      -- the chain up to this operand is the part that the rest of it goes on with
      obtain ⟨right, rest, hlt, hright, h⟩ := exists_of_bind_eq_ok h
      obtain ⟨v, hv, hrest⟩ := hoperand _ _ hright
      dsimp only at h
      split at h
      · cases h
      · next result hresult =>
        obtain ⟨all, rest', hlt', hall, h⟩ := exists_of_bind_eq_ok h
        cases h
        have hshorter : rest.length < s.length := by
          have hr := length_skipBlanks_le r
          have hs := length_skipBlanks_le s
          rw [heq, List.length_cons] at hs
          omega
        have hnext := hchain.step hvalue hskip hop (blanks_skipBlanks r) hv hresult
        exact chainFrom_sound hchain hoperand hnext hrest hall
termination_by s.length

theorem chain_sound (hchain : ChainOf operator? P Q) (hoperand : Sound P operand) :
    Sound Q (chain operator? operand) := by
  intro s found h
  obtain ⟨first, rest, hlt, hfirst, h⟩ := exists_of_bind_eq_ok h
  obtain ⟨t, ht, hblanks⟩ := hoperand _ _ hfirst
  obtain ⟨all, rest', hlt', hall, h⟩ := exists_of_bind_eq_ok h
  cases h
  exact chainFrom_sound hchain hoperand (hchain.single ht) hblanks hall

end Chains

section Rows

variable {e : Element} {element : Production e.Value} {close : Char} {what : Expectation} {levels : Nat}

theorem elements_sound (helement : Sound (Derives (.element e) levels) element) (s : List Char)
    (found : Reading (List e.Value) s.length) (h : elements element close what s = .ok found) :
    ∃ t, Derives (.elements e close) levels s found.value t ∧ Blanks t found.rest := by
  rw [elements] at h
  obtain ⟨first, rest, hlt, hfirst, h⟩ := exists_of_bind_eq_ok h
  obtain ⟨t, ht, hblanks⟩ := helement _ _ hfirst
  have hskip : Blanks t (skipBlanks rest) := hblanks.trans (blanks_skipBlanks rest)
  dsimp only at h
  split at h
  · cases h
  · next c r heq =>
    split at h
    · next hc =>
      rw [heq, hc] at hskip
      obtain ⟨others, rest', hlt', hothers, h⟩ := exists_of_bind_eq_ok h
      cases h
      have hshorter : r.length < s.length := by
        have hs := length_skipBlanks_le s
        have hrest := length_skipBlanks_le rest
        rw [heq, List.length_cons] at hrest
        omega
      obtain ⟨u, hu, hblanks'⟩ := elements_sound helement r _ hothers
      exact ⟨u, .more (blanks_skipBlanks s) ht hskip hu, hblanks'⟩
    · split at h
      · next hc =>
        rw [heq, hc] at hskip
        cases h
        exact ⟨r, .last (blanks_skipBlanks s) ht hskip, .refl r⟩
      · cases h
termination_by s.length

theorem delimited_sound (helement : Sound (Derives (.element e) levels) element) :
    Sound (Derives (.row e close) levels) (delimited element close what) := by
  have hsome : ∀ s (found : Reading (List e.Value) s.length), elements element close what s = .ok found →
      ∃ t, Derives (.row e close) levels s found.value t ∧ Blanks t found.rest := by
    intro s found h
    obtain ⟨t, ht, hblanks⟩ := elements_sound helement s found h
    exact ⟨t, .someElements ht, hblanks⟩
  intro s found h
  unfold delimited at h
  split at h
  · next c r heq =>
    split at h
    · next hc =>
      subst hc
      cases h
      exact ⟨r, .noElement (heq ▸ blanks_skipBlanks s), .refl r⟩
    · exact hsome s found h
  · exact hsome s found h

end Rows

/-! ## Expressions -/

theorem expression_sound_of_factor {levels : Nat} (h : Sound (Derives .factor levels) (factor levels)) :
    Sound (Derives .expression levels) (expression levels) := by
  have hproducts : ChainOf multiplicative? (Derives .factor levels) (Derives .term levels) := ⟨.factor, .multiplied⟩
  have hsums : ChainOf additive? (Derives .term levels) (Derives .expression levels) := ⟨.term, .added⟩
  exact chain_sound hsums (chain_sound hproducts h)

theorem factor_sound (levels : Nat) : Sound (Derives .factor levels) (factor levels) := by
  have hnumber : ∀ levels s (found : Reading Number s.length), numberLiteral true s = .ok found →
      ∃ t, Derives .factor levels s found.value t ∧ Blanks t found.rest := by
    intro levels s found h
    exact ⟨found.rest, .number (NumberText.of_numberLiteral h), .refl _⟩
  induction levels with
  | zero =>
    intro s found h
    rw [factor] at h
    split at h
    · cases h
    · exact hnumber 0 s found h
  | succ levels ih =>
    intro s found h
    rcases s with _ | ⟨c, r⟩
    · exact hnumber (levels + 1) [] found h
    by_cases hc : c = '('
    · subst hc
      rw [factor] at h
      obtain ⟨inner, rest, hlt, hinner, h⟩ := exists_of_bind_eq_ok h
      obtain ⟨t, ht, hblanks⟩ := expression_sound_of_factor ih _ _ hinner
      obtain ⟨_, rest', hlt', hclose, h⟩ := exists_of_bind_eq_ok h
      cases h
      have hparenthesis := eq_cons_of_mark hclose
      exact ⟨rest', .parentheses (blanks_skipBlanks r) ht (hparenthesis ▸ hblanks.trans (blanks_skipBlanks rest)),
        .refl rest'⟩
    · rw [factor_of_ne hc] at h
      exact hnumber (levels + 1) (c :: r) found h

theorem expression_sound (levels : Nat) : Sound (Derives .expression levels) (expression levels) :=
  expression_sound_of_factor (factor_sound levels)

/-! ## Calls and arguments -/

/-- The production for what stands inside brackets is sound, with one level less. -/
def InnerSound (levels : Nat) (inner : Option (Production Argument)) : Prop :=
  ∀ argument ∈ inner, ∃ left, levels = left + 1 ∧ Sound (Derives (.element .argument) left) argument

section Inner

variable {levels : Nat} {inner : Option (Production Argument)}

theorem callOf_sound (hinner : InnerSound levels inner) (what : Expectation) :
    Sound (Derives .call levels) (callOf inner what) := by
  intro s found h
  obtain ⟨called, rest, hlt, hcalled, h⟩ := exists_of_bind_eq_ok h
  obtain ⟨hname, hs⟩ := isName_of_name hcalled
  obtain ⟨arguments, rest', hlt', harguments, h⟩ := exists_of_bind_eq_ok h
  cases h
  cases inner with
  | none => cases harguments
  | some argument =>
    obtain ⟨left, rfl, hargument⟩ := hinner argument rfl
    obtain ⟨_, r, hlt'', hopening, harguments⟩ := exists_of_bind_eq_ok harguments
    obtain ⟨arguments', rest'', hlt''', hrow, harguments⟩ := exists_of_bind_eq_ok harguments
    cases harguments
    obtain ⟨t, ht, hblanks⟩ := delimited_sound hargument _ _ hrow
    have hparenthesis := eq_cons_of_mark hopening
    refine ⟨t, ?_, hblanks⟩
    dsimp only at hs hname ⊢
    subst hs
    exact .call hname (hparenthesis ▸ blanks_skipBlanks rest) ht

theorem word_sound (hinner : InnerSound levels inner) :
    Sound (Derives (.element .argument) levels) (word inner) := by
  intro s found h
  obtain ⟨called, rest, hlt, hcalled, h⟩ := exists_of_bind_eq_ok h
  obtain ⟨_, hs⟩ := isName_of_name hcalled
  dsimp only at h hs
  split at h
  · obtain ⟨c, rest', hlt', hcall, h⟩ := exists_of_bind_eq_ok h
    cases h
    obtain ⟨t, ht, hblanks⟩ := callOf_sound hinner .argument _ _ hcall
    exact ⟨t, .calledArgument ht, hblanks⟩
  · split at h
    · next htrue =>
      cases h
      subst htrue hs
      exact ⟨rest, Derives.boolean (b := true), .refl rest⟩
    · split at h
      · next hfalse =>
        cases h
        subst hfalse hs
        exact ⟨rest, Derives.boolean (b := false), .refl rest⟩
      · cases h

theorem entry_sound {argument : Production Argument} (h : Sound (Derives (.element .argument) levels) argument) :
    Sound (Derives (.element .entry) levels) (entry argument) := by
  intro s found hfound
  obtain ⟨key, rest, hlt, hkey, hfound⟩ := exists_of_bind_eq_ok hfound
  obtain ⟨t, ht, hblanks⟩ := h _ _ hkey
  obtain ⟨_, r, hlt', hcolon, hfound⟩ := exists_of_bind_eq_ok hfound
  obtain ⟨value, rest', hlt'', hvalue, hfound⟩ := exists_of_bind_eq_ok hfound
  cases hfound
  obtain ⟨u, hu, hblanks'⟩ := h _ _ hvalue
  have hcolon := eq_cons_of_mark hcolon
  exact ⟨u, .entry ht (hcolon ▸ hblanks.trans (blanks_skipBlanks rest)) (blanks_skipBlanks r) hu, hblanks'⟩

theorem argumentOf_sound (hinner : InnerSound levels inner) {number : Production Number}
    (hnumber : Sound (Derives .expression levels) number) :
    Sound (Derives (.element .argument) levels) (argumentOf inner number) := by
  intro s found h
  unfold argumentOf at h
  split at h
  · cases h
  · -- a list
    split at h
    · cases h
    · next argument =>
      obtain ⟨left, rfl, hargument⟩ := hinner argument rfl
      obtain ⟨items, rest, hlt, hitems, h⟩ := exists_of_bind_eq_ok h
      cases h
      obtain ⟨t, ht, hblanks⟩ := delimited_sound hargument _ _ hitems
      exact ⟨t, .list ht, hblanks⟩
  · -- a map
    split at h
    · cases h
    · next argument =>
      obtain ⟨left, rfl, hargument⟩ := hinner argument rfl
      obtain ⟨entries, rest, hlt, hentries, h⟩ := exists_of_bind_eq_ok h
      cases h
      obtain ⟨t, ht, hblanks⟩ := delimited_sound (e := .entry) (entry_sound hargument) _ _ hentries
      exact ⟨t, .map ht, hblanks⟩
  · -- a string
    split at h
    · cases h
    · next found' hdecode =>
      cases h
      exact ⟨found'.2, .string (quotedText_iff.2 hdecode), .refl _⟩
  · -- a name, or a number
    split at h
    · exact word_sound hinner _ _ h
    · split at h
      · obtain ⟨n, rest, hlt, hn, h⟩ := exists_of_bind_eq_ok h
        cases h
        obtain ⟨t, ht, hblanks⟩ := hnumber _ _ hn
        exact ⟨t, .numberArgument ht, hblanks⟩
      · cases h

end Inner

theorem argument_sound (levels : Nat) : Sound (Derives (.element .argument) levels) (argument levels) := by
  induction levels with
  | zero =>
    have hinner : InnerSound 0 none := by
      rintro _ ⟨⟩
    exact argumentOf_sound hinner (expression_sound 0)
  | succ levels ih =>
    have hinner : InnerSound (levels + 1) (some (argument levels)) := by
      rintro _ ⟨⟩
      exact ⟨levels, rfl, ih⟩
    exact argumentOf_sound hinner (expression_sound (levels + 1))

theorem call_sound (levels : Nat) (what : Expectation) : Sound (Derives .call levels) (call levels what) := by
  rw [call_eq]
  refine callOf_sound ?_ what
  cases levels with
  | zero => rintro _ ⟨⟩
  | succ levels =>
    rintro _ ⟨⟩
    exact ⟨levels, rfl, argument_sound levels⟩

/-! ## Schedules and statements -/

section Schedules

variable {levels : Nat}

theorem itemOf_sound {inner : Production Schedule} {call : Production Call}
    (hinner : Sound (Derives .schedule levels) inner) (hcall : Sound (Derives .call levels) call) :
    Sound (Derives (.element .item) levels) (itemOf inner call) := by
  intro s found h
  unfold itemOf at h
  split at h
  · cases h
  · obtain ⟨nested, rest, hlt, hnested, h⟩ := exists_of_bind_eq_ok h
    cases h
    obtain ⟨t, ht, hblanks⟩ := hinner _ _ hnested
    exact ⟨t, .innerSchedule ht, hblanks⟩
  · obtain ⟨seconds, rest, hlt, hseconds, h⟩ := exists_of_bind_eq_ok h
    cases h
    exact ⟨rest, .plusInterval (NumberText.of_numberLiteral hseconds), .refl rest⟩
  · split at h
    · obtain ⟨seconds, rest, hlt, hseconds, h⟩ := exists_of_bind_eq_ok h
      cases h
      exact ⟨rest, .interval (NumberText.of_numberLiteral hseconds), .refl rest⟩
    · obtain ⟨c, rest, hlt, hc, h⟩ := exists_of_bind_eq_ok h
      cases h
      obtain ⟨t, ht, hblanks⟩ := hcall _ _ hc
      exact ⟨t, .calledInterval ht, hblanks⟩

theorem passesOf_sound {call : Production Call} (hcall : Sound (Derives .call levels) call) :
    Sound (Derives .passes levels) (passesOf call) := by
  intro s found h
  unfold passesOf at h
  split at h
  · cases h
  · next r =>
    cases h
    exact ⟨r, .forever, .refl r⟩
  · next c r _ =>
    split at h
    · next hc =>
      dsimp only at h
      split at h
      · next hcount =>
        cases h
        have hdigits : ∀ d ∈ c :: r.takeWhile Char.isDigit, d.isDigit = true := by
          intro d hd
          rcases List.mem_cons.1 hd with rfl | hd
          · exact hc
          · exact isDigit_of_mem_takeWhile hd
        have hs : c :: r = (c :: r.takeWhile Char.isDigit) ++ r.dropWhile Char.isDigit := by
          rw [List.cons_append, List.takeWhile_append_dropWhile]
        refine ⟨_, ?_, .refl _⟩
        conv in c :: r => rw [hs]
        exact .times (List.cons_ne_nil _ _) hdigits hcount
      · cases h
    · obtain ⟨found', rest, hlt, hfound, h⟩ := exists_of_bind_eq_ok h
      cases h
      obtain ⟨t, ht, hblanks⟩ := hcall _ _ hfound
      exact ⟨t, .calledPasses ht, hblanks⟩

theorem scheduleOf_sound {inner : Production Schedule} {call : Expectation → Production Call}
    (hinner : Sound (Derives .schedule levels) inner) (hcall : ∀ what, Sound (Derives .call levels) (call what)) :
    Sound (Derives .schedule (levels + 1)) (scheduleOf inner call) := by
  intro s found h
  obtain ⟨_, r, hlt, hopening, h⟩ := exists_of_bind_eq_ok h
  obtain ⟨items, rest, hlt', hitems, h⟩ := exists_of_bind_eq_ok h
  have hopening := eq_cons_of_mark hopening
  obtain ⟨t, ht, hblanks⟩ := delimited_sound (e := .item) (itemOf_sound hinner (hcall .item)) _ _ hitems
  have hskip : Blanks t (skipBlanks rest) := hblanks.trans (blanks_skipBlanks rest)
  dsimp only at h hopening
  subst hopening
  split at h
  · next r' heq =>
    obtain ⟨passes, rest', hlt'', hpasses, h⟩ := exists_of_bind_eq_ok h
    cases h
    obtain ⟨u, hu, hblanks'⟩ := passesOf_sound (hcall .passes) _ _ hpasses
    exact ⟨u, .repeated ht (heq ▸ hskip) (blanks_skipBlanks r') hu, hblanks'⟩
  · cases h
    exact ⟨t, .once ht, hskip⟩

end Schedules

theorem schedule_sound (levels : Nat) : Sound (Derives .schedule levels) (schedule levels) := by
  induction levels with
  | zero =>
    intro s found h
    cases h
  | succ levels ih => exact scheduleOf_sound ih (call_sound levels)

theorem statement_sound : Sound StatementText statement := by
  intro s found h
  obtain ⟨action, rest, hlt, haction, h⟩ := exists_of_bind_eq_ok h
  obtain ⟨t, ht, hblanks⟩ := call_sound maxNesting .action _ _ haction
  obtain ⟨_, r, hlt', hsign, h⟩ := exists_of_bind_eq_ok h
  have hsign := eq_cons_of_mark hsign
  obtain ⟨timing, rest', hlt'', htiming, h⟩ := exists_of_bind_eq_ok h
  cases h
  obtain ⟨u, hu, hblanks'⟩ := schedule_sound maxNesting _ _ htiming
  exact ⟨u, .intro ht (hsign ▸ hblanks.trans (blanks_skipBlanks rest)) (blanks_skipBlanks r) hu, hblanks'⟩

/-- A text that is read as a program is one. -/
theorem programText_of_statements {s : List Char} {l : List Statement} (h : statements s = .ok l) :
    ProgramText s l := by
  rw [statements] at h
  obtain ⟨first, rest, hlt, hfirst, h⟩ := exists_of_bind_eq_ok h
  obtain ⟨t, ht, hblanks⟩ := statement_sound _ _ hfirst
  dsimp only at h
  split at h
  · next hend =>
    cases h
    exact .last (blanks_skipBlanks s) ht (hblanks.trans (blanks_nil_iff.2 (List.isEmpty_iff.1 hend)))
  · cases hothers : statements rest with
    | error e =>
      rw [hothers] at h
      cases h
    | ok others =>
      rw [hothers] at h
      cases h
      have hshorter : rest.length < s.length := Nat.lt_of_lt_of_le hlt (length_skipBlanks_le s)
      exact .more (blanks_skipBlanks s) ht ((programText_of_statements hothers).before hblanks)
termination_by s.length

/-- A text that is read as a whole is one of the category. -/
theorem wholeText_of_whole {c : Category} {production : Production c.Value}
    (hsound : Sound (Derives c maxNesting) production) {s : List Char} {value : c.Value}
    (h : whole production s = .ok value) : WholeText c s value := by
  obtain ⟨found, rest, hlt, hfound, h⟩ := exists_of_bind_eq_ok h
  obtain ⟨t, ht, hblanks⟩ := hsound _ _ hfound
  dsimp only at h
  split at h
  · next hend =>
    cases h
    exact ⟨_, t, blanks_skipBlanks s, ht, hblanks.trans (blanks_nil_iff.2 (List.isEmpty_iff.1 hend))⟩
  · cases h

end Cadence
