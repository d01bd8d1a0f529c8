import Cadence.Proofs.Program.Completeness
import Cadence.Proofs.Program.Expressions
import Cadence.Proofs.Program.Tracking

/-!
# Expressions are worked out as they are read

Which tree a text derives (`ExpressionText`), and what becomes of the text: reading it comes to what working out the tree
comes to (`ExpressionText.folds`). The expressions of the grammar are those whose trees have values
(`derives_expression_iff`). As for those, the induction is on the derivation, and the statement about a sum or product
says what becomes of whatever is read behind it (`ChainFolds`); here that is a continuation, which is not reached if the
part itself has no value. The main result is `parse_expression`.
-/

namespace Cadence

variable {α β : Type}

/-! ## Texts and their trees -/

/-- How tightly the parts of an expression hold together. -/
inductive Tier
  | factor
  | term
  | expression

/-- The tree of an expression stands at the front of the first text, with so many levels left for parentheses; the second
text is what follows it. Operators of one tier are put together from the left, and an operation keeps the text from its
operator on. -/
inductive ExpressionText : Tier → Nat → List Char → Expression → List Char → Prop
  | number {levels : Nat} {n : Number} {s t : List Char} :
    NumberText true n s t → ExpressionText .factor levels s (.number n) t
  | parentheses {levels : Nat} {e : Expression} {r s t u : List Char} :
    Blanks r s → ExpressionText .expression levels s e t → Blanks t (')' :: u) →
    ExpressionText .factor (levels + 1) ('(' :: r) e u
  | factor {levels : Nat} {e : Expression} {s t : List Char} :
    ExpressionText .factor levels s e t → ExpressionText .term levels s e t
  | multiplied {levels : Nat} {a b : Expression} {op : Operator} {c : Char} {s t u v w : List Char} :
    ExpressionText .term levels s a t → Blanks t (c :: u) → multiplicative? c = some op → Blanks u v →
    ExpressionText .factor levels v b w → ExpressionText .term levels s (.operation a op (c :: u) b) w
  | term {levels : Nat} {e : Expression} {s t : List Char} :
    ExpressionText .term levels s e t → ExpressionText .expression levels s e t
  | added {levels : Nat} {a b : Expression} {op : Operator} {c : Char} {s t u v w : List Char} :
    ExpressionText .expression levels s a t → Blanks t (c :: u) → additive? c = some op → Blanks u v →
    ExpressionText .term levels v b w → ExpressionText .expression levels s (.operation a op (c :: u) b) w

theorem ExpressionText.exists_head {tier : Tier} {levels : Nat} {s t : List Char} {e : Expression}
    (h : ExpressionText tier levels s e t) : ∃ d r, s = d :: r ∧ startsNumber d = true := by
  induction h with
  | number hnumber => exact hnumber.starts
  | parentheses => exact ⟨'(', _, rfl, rfl⟩
  | factor _ ih => exact ih
  | multiplied _ _ _ _ _ ih _ => exact ih
  | term _ ih => exact ih
  | added _ _ _ _ _ ih _ => exact ih

/-- Blanks in front of a part are skipped. -/
theorem ExpressionText.skipBlanks_eq {tier : Tier} {levels : Nat} {r s t : List Char} {e : Expression}
    (h : ExpressionText tier levels s e t) (hblanks : Blanks r s) : skipBlanks r = s := by
  obtain ⟨d, r', rfl, hd⟩ := h.exists_head
  exact (begins_of_starts (c := .expression) hd trivial r').skipBlanks_eq hblanks

/-! ## Trees with values -/

/-- A part of an expression has a tree with the value; for other categories nothing is said. -/
def Category.HasTree : (c : Category) → Nat → List Char → c.Value → List Char → Prop
  | .factor, levels, s, n, t => ∃ e, ExpressionText .factor levels s e t ∧ e.value? = some n
  | .term, levels, s, n, t => ∃ e, ExpressionText .term levels s e t ∧ e.value? = some n
  | .expression, levels, s, n, t => ∃ e, ExpressionText .expression levels s e t ∧ e.value? = some n
  | .call, _, _, _, _ | .passes, _, _, _, _ | .schedule, _, _, _, _ | .element _, _, _, _, _
  | .elements _ _, _, _, _, _ | .row _ _, _, _, _, _ => True

theorem Derives.hasTree {c : Category} {levels : Nat} {s t : List Char} {value : c.Value}
    (h : Derives c levels s value t) : c.HasTree levels s value t := by
  induction h with
  | number h => exact ⟨_, .number h, rfl⟩
  | parentheses hr _ hclose ih =>
    obtain ⟨e, htext, hvalue⟩ := ih
    exact ⟨e, .parentheses hr htext hclose, hvalue⟩
  | factor _ ih =>
    obtain ⟨e, htext, hvalue⟩ := ih
    exact ⟨e, .factor htext, hvalue⟩
  | multiplied _ hc hop hv _ hresult ih ih' =>
    obtain ⟨a, hleft, ha⟩ := ih
    obtain ⟨b, hright, hb⟩ := ih'
    rw [← Operator.result_eq_apply] at hresult
    exact ⟨_, .multiplied hleft hc hop hv hright, Expression.value?_operation_eq_some_iff.2 ⟨_, _, ha, hb, hresult⟩⟩
  | term _ ih =>
    obtain ⟨e, htext, hvalue⟩ := ih
    exact ⟨e, .term htext, hvalue⟩
  | added _ hc hop hv _ hresult ih ih' =>
    obtain ⟨a, hleft, ha⟩ := ih
    obtain ⟨b, hright, hb⟩ := ih'
    rw [← Operator.result_eq_apply] at hresult
    exact ⟨_, .added hleft hc hop hv hright, Expression.value?_operation_eq_some_iff.2 ⟨_, _, ha, hb, hresult⟩⟩
  | _ => trivial

/-- The value of a tree derives from the grammar, in the category of its tier. -/
def Tier.Derives : Tier → Nat → List Char → Number → List Char → Prop
  | .factor, levels, s, n, t => Cadence.Derives .factor levels s n t
  | .term, levels, s, n, t => Cadence.Derives .term levels s n t
  | .expression, levels, s, n, t => Cadence.Derives .expression levels s n t

theorem ExpressionText.derives {tier : Tier} {levels : Nat} {s t : List Char} {e : Expression} {n : Number}
    (h : ExpressionText tier levels s e t) (hvalue : e.value? = some n) : tier.Derives levels s n t := by
  induction h generalizing n with
  | number h =>
    cases hvalue
    exact .number h
  | parentheses hr _ hclose ih => exact .parentheses hr (ih hvalue) hclose
  | factor _ ih => exact .factor (ih hvalue)
  | multiplied _ hc hop hv _ ih ih' =>
    obtain ⟨a, b, ha, hb, hresult⟩ := Expression.value?_operation_eq_some_iff.1 hvalue
    rw [Operator.result_eq_apply] at hresult
    exact .multiplied (ih ha) hc hop hv (ih' hb) hresult
  | term _ ih => exact .term (ih hvalue)
  | added _ hc hop hv _ ih ih' =>
    obtain ⟨a, b, ha, hb, hresult⟩ := Expression.value?_operation_eq_some_iff.1 hvalue
    rw [Operator.result_eq_apply] at hresult
    exact .added (ih ha) hc hop hv (ih' hb) hresult

/-- The expressions of the grammar are those whose trees have values. -/
theorem derives_expression_iff {levels : Nat} {s t : List Char} {n : Number} :
    Derives .expression levels s n t ↔ ∃ e, ExpressionText .expression levels s e t ∧ e.value? = some n := by
  constructor
  · exact Derives.hasTree
  · rintro ⟨e, htext, hvalue⟩
    exact htext.derives hvalue

/-! ## What a result comes to -/

/-- A result is the complaint that the outcome is, or its value, and then what is left is the given text, up to blanks in
front of it. -/
def ComesTo {bound : Nat} (result : Except Complaint (Reading α bound)) (outcome : Except Complaint α)
    (t : List Char) : Prop :=
  match outcome with
  | .ok value => Reaches result value t
  | .error c => result = .error c

theorem ComesTo.bind {bound bound' : Nat} {result : Except Complaint (Reading α bound)} {outcome : Except Complaint α}
    {t t' : List Char} (h : ComesTo result outcome t) {f : Reading α bound → Except Complaint (Reading β bound')}
    {k : α → Except Complaint β}
    (hf : ∀ value rest hlt, skipBlanks rest = skipBlanks t → ComesTo (f ⟨value, rest, hlt⟩) (k value) t') :
    ComesTo (result >>= f) (outcome >>= k) t' := by
  cases outcome with
  | ok value =>
    obtain ⟨rest, hlt, rfl, hrest⟩ := h
    exact hf value rest hlt hrest
  | error c =>
    have hresult : result = .error c := h
    rw [hresult]
    rfl

/-- A complaint stands, whatever is to be done with a value. -/
theorem ComesTo.then {bound bound' : Nat} {result : Except Complaint (Reading α bound)} {outcome : Except Complaint α}
    {t t' : List Char} (h : ComesTo result outcome t) {f : Reading α bound → Except Complaint (Reading β bound')}
    {g : α → β} (hf : ∀ value rest hlt, skipBlanks rest = skipBlanks t → Reaches (f ⟨value, rest, hlt⟩) (g value) t') :
    ComesTo (result >>= f) (outcome.map g) t' := by
  cases outcome with
  | ok value =>
    obtain ⟨rest, hlt, rfl, hrest⟩ := h
    exact hf value rest hlt hrest
  | error c =>
    have hresult : result = .error c := h
    rw [hresult]
    rfl

/-- Values that are passed on as they are come to the same. -/
theorem ComesTo.relay {bound bound' : Nat} {result : Except Complaint (Reading α bound)} {outcome : Except Complaint α}
    {t t' : List Char} (h : ComesTo result outcome t) {f : Reading α bound → Except Complaint (Reading α bound')}
    (hf : ∀ value rest hlt, skipBlanks rest = skipBlanks t → Reaches (f ⟨value, rest, hlt⟩) value t') :
    ComesTo (result >>= f) outcome t' := by
  have hsame := h.then (g := id) hf
  rwa [Except.map_id] at hsame

/-- What an operation on two values comes to, if its operator stands at the front of a text. -/
def operate (op : Operator) (rest : List Char) (a b : Number) : Except Complaint Number :=
  (a.apply op b).mapError fun fault => ⟨.arithmetic fault, rest⟩

/-- What is read where an expression stands: its value, or a complaint about its first operation at fault. -/
def Expression.reading (e : Expression) : Except Complaint Number :=
  e.outcome.mapError fun found => ⟨.arithmetic found.1, found.2⟩

theorem Expression.reading_operation (left : Expression) (op : Operator) (rest : List Char) (right : Expression) :
    (operation left op rest right).reading
      = left.reading >>= fun a => right.reading >>= fun b => operate op rest a b := by
  rw [reading, reading, reading, outcome]
  cases left.outcome with
  | error found => rfl
  | ok a =>
    cases right.outcome with
    | error found => rfl
    | ok b =>
      show ((op.result a b).mapError _).mapError _ = operate op rest a b
      rw [operate, op.result_eq_apply]
      cases a.apply op b <;> rfl

/-! ## Chains -/

/-- A chain of operands is read as its tree is worked out, and then whatever is read behind it: what follows cannot be
part of an operand. -/
def ChainFolds (operator? : Char → Option Operator) (operand : Production Number) (closers s : List Char) (e : Expression)
    (t : List Char) : Prop :=
  Follows closers t → ∀ (k : Number → Except Complaint Number) (x : List Char),
    (∀ n rest, skipBlanks rest = skipBlanks t → ComesTo (chainFrom operator? operand n rest) (k n) x) →
    ComesTo (chain operator? operand s) (e.reading >>= k) x

section Chains

variable {operator? : Char → Option Operator} {operand : Production Number} {closers s t u v w : List Char}
  {a b e : Expression} {op : Operator} {c : Char}

/-- Behind an operator a chain goes on with an operand, is worked out up to there, and goes on. -/
theorem comesTo_chainFrom {n : Number} {rest x : List Char} {right : Except Complaint Number}
    {k : Number → Except Complaint Number} (hrest : skipBlanks rest = c :: u) (hop : operator? c = some op)
    (hoperand : ComesTo (operand (skipBlanks u)) right w)
    (hend : ∀ n rest, skipBlanks rest = skipBlanks w → ComesTo (chainFrom operator? operand n rest) (k n) x) :
    ComesTo (chainFrom operator? operand n rest) (right >>= fun m => operate op (c :: u) n m >>= k) x := by
  rw [chainFrom]
  split
  · next heq =>
    rw [hrest] at heq
    cases heq
  · next c' r heq =>
    rw [hrest] at heq
    cases heq
    dsimp only
    split
    · next hnone =>
      rw [hop] at hnone
      cases hnone
    · next op' hop' =>
      rw [hop] at hop'
      cases hop'
      -- a complaint about the operand stands, and so does one about the operation
      refine hoperand.bind fun m rest' hlt hrest' => ?_
      dsimp only
      rw [operate]
      split
      · next fault hfault =>
        rw [hfault]
        rfl
      · next result hresult =>
        rw [hresult]
        exact (hend result rest' hrest').relay fun _ _ _ hrest => Reaches.pure hrest

/-- A chain is its first operand with what is read behind it. -/
theorem chainFolds_first (h : Follows closers t → ComesTo (operand s) e.reading t) :
    ChainFolds operator? operand closers s e t := by
  intro ht k x hend
  exact (h ht).bind fun n rest _ hrest => (hend n rest hrest).relay fun _ _ _ hrest => Reaches.pure hrest

/-- A chain goes on with an operator and one more operand. -/
theorem chainFolds_next (h : ChainFolds operator? operand closers s a t) (hc : Blanks t (c :: u))
    (hop : operator? c = some op) (hblank : isBlank c = false) (hmem : c ∈ closers) (hv : skipBlanks u = v)
    (hoperand : Follows closers w → ComesTo (operand v) b.reading w) :
    ChainFolds operator? operand closers s (.operation a op (c :: u) b) w := by
  intro hw k x hend
  -- going on behind the operator is what is read behind the operands before it
  have hright := hoperand hw
  rw [← hv] at hright
  have hgoesOn := h (follows_of_blanks hc hblank hmem) _ x fun n rest hrest =>
    comesTo_chainFrom (hrest.trans (hc.skipBlanks_cons hblank)) hop hright hend
  rw [Expression.reading_operation, bind_assoc]
  simpa only [bind_assoc] using hgoesOn

/-- A chain ends where no operator follows. -/
theorem chainFolds_all (h : ChainFolds operator? operand closers s e t) (ht : Follows closers t)
    (hend : ∀ c ∈ (skipBlanks t).head?, operator? c = none) : ComesTo (chain operator? operand s) e.reading t := by
  have hall := h ht pure t fun n rest hrest => chainFrom_ends hrest hend
  rw [bind_pure] at hall
  exact hall

end Chains

/-! ## What is read -/

/-- A part of an expression is read as its tree is worked out, if what follows does not go on with it. -/
def Tier.Folds : Tier → Nat → List Char → Expression → List Char → Prop
  | .factor, levels, s, e, t => Follows numberClosers t → ComesTo (Cadence.factor levels s) e.reading t
  | .term, levels, s, e, t => ChainFolds multiplicative? (Cadence.factor levels) numberClosers s e t
  | .expression, levels, s, e, t =>
    ChainFolds additive? (chain multiplicative? (Cadence.factor levels)) sumClosers s e t

section Tiers

variable {levels : Nat} {e : Expression} {r s t u : List Char}

theorem Tier.Folds.term_comesTo (h : Tier.Folds .term levels s e t) (ht : Follows sumClosers t) :
    ComesTo (chain multiplicative? (Cadence.factor levels) s) e.reading t :=
  chainFolds_all h (ht.mono (by decide)) ht.multiplicative?

theorem Tier.Folds.expression_comesTo (h : Tier.Folds .expression levels s e t)
    (ht : Follows [',', ':', ')', ']', '\x7d'] t) : ComesTo (Cadence.expression levels s) e.reading t := by
  refine chainFolds_all h (ht.mono (by decide)) fun c hc => ?_
  have hall : ∀ c ∈ [',', ':', ')', ']', '\x7d'], additive? c = none := List.all_iff_forall_prop.1 rfl
  exact hall c (ht c hc)

theorem folds_number {n : Number} (h : NumberText true n s t) : Tier.Folds .factor levels s (.number n) t :=
  reads_number h

theorem folds_parentheses (hr : Blanks r s) (h : ExpressionText .expression levels s e t)
    (hfolds : Tier.Folds .expression levels s e t) (hclose : Blanks t (')' :: u)) :
    Tier.Folds .factor (levels + 1) ('(' :: r) e u := by
  intro _
  have hinner := hfolds.expression_comesTo (follows_of_blanks hclose (by decide) (by decide))
  rw [← h.skipBlanks_eq hr] at hinner
  rw [factor]
  refine hinner.relay fun n rest hlt hrest => ?_
  rw [hclose.skipBlanks_cons (by decide)] at hrest
  have hmark := gives_mark ')' .parenthesisEnd u
  rw [← hrest] at hmark
  exact hmark.then fun _ => Reaches.pure rfl

end Tiers

/-- Expressions are read as their trees are worked out. -/
theorem ExpressionText.folds {tier : Tier} {levels : Nat} {s t : List Char} {e : Expression}
    (h : ExpressionText tier levels s e t) : tier.Folds levels s e t := by
  induction h with
  | number h => exact folds_number h
  | parentheses hr h hclose ih => exact folds_parentheses hr h ih hclose
  | factor _ ih => exact chainFolds_first ih
  | multiplied _ hc hop hv h hfirst hoperand =>
    obtain ⟨hblank, hmem⟩ := multiplicative?_closes hop
    exact chainFolds_next hfirst hc hop hblank hmem (h.skipBlanks_eq hv) hoperand
  | term _ ih => exact chainFolds_first ih.term_comesTo
  | added _ hc hop hv h hfirst hoperand =>
    obtain ⟨hblank, hmem⟩ := additive?_closes hop
    exact chainFolds_next hfirst hc hop hblank hmem (h.skipBlanks_eq hv) hoperand.term_comesTo

/-! ## Whole texts -/

theorem argument_comesTo {s t : List Char} {levels : Nat} {e : Expression}
    (h : ExpressionText .expression levels s e t) (ht : Follows [',', ':', ')', ']', '\x7d'] t) :
    ComesTo (argument levels s) (e.reading.map fun n => .literal (.number n)) t := by
  obtain ⟨d, r, rfl, hd⟩ := h.exists_head
  rw [argument_eq, argumentOf_of_number hd]
  exact (h.folds.expression_comesTo ht).then fun _ _ _ hrest => Reaches.pure hrest

/-- What is read of a text as a whole is what its only part comes to. -/
theorem ComesTo.whole {production : Production α} {outcome : Except Complaint α} {s t : List Char}
    (h : ComesTo (production (skipBlanks s)) outcome t) (ht : Blanks t []) : whole production s = outcome := by
  rw [Cadence.whole]
  cases outcome with
  | ok value =>
    obtain ⟨rest, hlt, hresult, hrest⟩ := h
    have hempty : (skipBlanks rest).isEmpty = true := by
      rw [hrest, blanks_nil_iff.1 ht]
      rfl
    rw [hresult]
    exact if_pos hempty
  | error c =>
    have hresult : production (skipBlanks s) = .error c := h
    rw [hresult]
    rfl

/-- A complaint is about an end of the text. -/
theorem suffix_of_whole_argument {source : List Char} {c : Complaint}
    (h : whole (argument maxNesting) source = .error c) : c.rest <:+ source := by
  have hagrees : Scan.Agrees source 0 _ source _ := Scan.agrees_whole (Scan.tracks_argument maxNesting rfl) source
  rw [h] at hagrees
  exact (hagrees (List.suffix_refl source)).1

open String (utf8Len)

/-- An expression on its own is read as its value if all of its operations have results, and an integer is its exact
value. Otherwise reading fails with the fault of the first operation that has no result, at the byte offset of its
operator. -/
theorem parse_expression {source : String} {e : Expression} {s t : List Char} (hs : Blanks source.toList s)
    (h : ExpressionText .expression maxNesting s e t) (ht : Blanks t []) :
    (e.firstFault? = none →
      ∃ n, e.value? = some n ∧ parseArgument source = .ok (.literal (.number n)) ∧
        ∀ k, n = .int k → e.integer? = some k.toInt) ∧
      ∀ fault rest, e.firstFault? = some (fault, rest) →
        e.value? = none ∧ ∃ before, source.toList = before ++ rest ∧
          parseArgument source = .error ⟨fault.words, Place.after before⟩ ∧
          (Place.after before).offset = utf8Len before := by
  have hwhole : whole (argument maxNesting) source.toList = e.reading.map fun n => .literal (.number n) := by
    have hargument := argument_comesTo h (follows_nil ht)
    rw [← h.skipBlanks_eq hs] at hargument
    exact hargument.whole ht
  rcases e.outcome_cases with ⟨n, houtcome, hvalue, hnone⟩ | ⟨⟨fault, rest⟩, houtcome, hvalue, hsome⟩
  · refine ⟨fun _ => ⟨n, hvalue, ?_, ?_⟩, ?_⟩
    · rw [Expression.reading, houtcome] at hwhole
      exact inSource_eq_ok_iff.2 hwhole
    · rintro k rfl
      exact Expression.integer?_of_value? hvalue
    · intro fault rest hsome
      rw [hnone] at hsome
      cases hsome
  · refine ⟨?_, ?_⟩
    · intro hnone
      rw [hsome] at hnone
      cases hnone
    · intro fault' rest' hsome'
      rw [hsome] at hsome'
      cases hsome'
      rw [Expression.reading, houtcome] at hwhole
      obtain ⟨before, hbefore⟩ := suffix_of_whole_argument hwhole
      refine ⟨hvalue, before, hbefore.symm, ?_, ?_⟩
      · rw [parseArgument, inSource, hwhole]
        show Except.error (Complaint.toSyntaxError source.toList ⟨.arithmetic fault, rest⟩) = _
        rw [Complaint.toSyntaxError, Place.ofRest, ← hbefore, textBefore_append]
        rfl
      · rw [Place.after_eq]

/-- `1+2*3` is `7`, and `1+2/0` fails at its second operator. -/
theorem parse_expression_precedence :
    parseArgument "1+2*3" = .ok (.literal (.number (.int 7))) ∧
      parseArgument "1+2/0" = .error ⟨"division by zero in constant expression", ⟨3, 1, 4⟩⟩ := by
  have hdigit : ∀ {levels : Nat} (d : Char) (k : Int64) {t : List Char}, d.isDigit = true →
      (Nat.ofDigitChars 10 [d] 0 : Int) = k.toInt → ExpressionText .factor levels (d :: t) (.number (.int k)) t := by
    intro levels d k t hd hk
    refine .number ⟨false, _, ⟨[d], none, none⟩, .none, ⟨rfl, List.forall_mem_singleton.2 hd, ?_⟩, rfl, hk⟩
    exact ⟨t, t, rfl, .none, .none⟩
  constructor
  · have htext : ExpressionText .expression 256 "1+2*3".toList
        (.operation (.number (.int 1)) .plus "+2*3".toList
          (.operation (.number (.int 2)) .times "*3".toList (.number (.int 3)))) [] :=
      .added (.term (.factor (hdigit '1' 1 rfl rfl))) (Blanks.refl _) rfl (Blanks.refl _)
        (.multiplied (.factor (hdigit '2' 2 rfl rfl)) (Blanks.refl _) rfl (Blanks.refl _) (hdigit '3' 3 rfl rfl))
    obtain ⟨n, hn, hparse, _⟩ := (parse_expression (Blanks.refl _) htext (Blanks.refl _)).1 rfl
    cases hn
    exact hparse
  · have htext : ExpressionText .expression 256 "1+2/0".toList
        (.operation (.number (.int 1)) .plus "+2/0".toList
          (.operation (.number (.int 2)) .dividedBy "/0".toList (.number (.int 0)))) [] :=
      .added (.term (.factor (hdigit '1' 1 rfl rfl))) (Blanks.refl _) rfl (Blanks.refl _)
        (.multiplied (.factor (hdigit '2' 2 rfl rfl)) (Blanks.refl _) rfl (Blanks.refl _) (hdigit '0' 0 rfl rfl))
    obtain ⟨_, before, hbefore, hparse, _⟩ :=
      (parse_expression (Blanks.refl _) htext (Blanks.refl _)).2 .divisionByZero "/0".toList rfl
    have hplace : before = "1+2".toList := List.append_cancel_right hbefore.symm
    rw [hparse, hplace]
    rfl

end Cadence
