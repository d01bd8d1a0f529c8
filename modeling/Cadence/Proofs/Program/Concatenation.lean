import Cadence.Proofs.Program.Completeness
import Cadence.Proofs.Program.Tracking

/-!
# Programs behind one another

Nothing ends a statement but the next one, or the end of the text. A program followed by a text that begins with a
letter is read as the statements of the program and then as the text would be (`parse_append`): with its statements, or
with its complaint, at a place that is further by the bytes of the program. A derivation does not look at what is left
of the text, so it stays one if a text is put behind it (`Derives.append`); and a letter goes on with no number that
ends the last statement, and is no colon, so that the last statement is read to the same end as without it
(`statements_append_of_error`).
-/

namespace Cadence

open String (utf8Len)

/-! ## Derivations in longer texts -/

theorem Blanks.append {s t : List Char} (h : Blanks s t) (x : List Char) : Blanks (s ++ x) (t ++ x) := by
  obtain ⟨blanks, hblanks, rfl⟩ := h
  exact ⟨blanks, hblanks, List.append_assoc blanks t x⟩

theorem SignText.append {signed negative : Bool} {s t : List Char} (h : SignText signed negative s t) (x : List Char) :
    SignText signed negative (s ++ x) (t ++ x) := by
  cases h with
  | none => exact .none
  | plus hsigned => exact .plus hsigned
  | minus hsigned => exact .minus hsigned

theorem FractionText.append {fraction : Option (List Char)} {s t : List Char} (h : FractionText fraction s t)
    (x : List Char) : FractionText fraction (s ++ x) (t ++ x) := by
  cases h with
  | none => exact .none
  | @point digits _ hdigits =>
    rw [List.cons_append, List.append_assoc]
    exact .point hdigits

theorem ExponentText.append {exponent : Option Int} {s t : List Char} (h : ExponentText exponent s t) (x : List Char) :
    ExponentText exponent (s ++ x) (t ++ x) := by
  cases h with
  | none => exact .none
  | power he hsign hne hdigits =>
    have hsign := hsign.append x
    rw [List.append_assoc] at hsign
    exact .power he hsign hne hdigits

theorem NumeralText.append {n : Numeral} {s t : List Char} (h : NumeralText n s t) (x : List Char) :
    NumeralText n (s ++ x) (t ++ x) := by
  obtain ⟨u, v, hs, hfraction, hexponent⟩ := h.parts
  refine ⟨h.hasDigits, h.isDigit, u ++ x, v ++ x, ?_, hfraction.append x, hexponent.append x⟩
  rw [hs, List.append_assoc]

theorem NumberText.append {signed : Bool} {value : Number} {s t : List Char} (h : NumberText signed value s t)
    (x : List Char) : NumberText signed value (s ++ x) (t ++ x) := by
  obtain ⟨negative, u, n, hsign, hnumeral, hvalue⟩ := h
  exact ⟨negative, u ++ x, n, hsign.append x, hnumeral.append x, hvalue⟩

theorem QuotedText.append {text s t : List Char} (h : QuotedText text s t) (x : List Char) :
    QuotedText text (s ++ x) (t ++ x) := by
  induction h with
  | close => exact .close
  | plain hquote hbackslash _ ih => exact .plain hquote hbackslash ih
  | escaped _ ih => exact .escaped ih

/-- A derivation stays one if a text is put behind. -/
theorem Derives.append {c : Category} {levels : Nat} {s t : List Char} {value : c.Value}
    (h : Derives c levels s value t) (x : List Char) : Derives c levels (s ++ x) value (t ++ x) := by
  induction h with
  | number hnumber => exact .number (hnumber.append x)
  | parentheses hr _ hclose ih => exact .parentheses (hr.append x) ih (hclose.append x)
  | factor _ ih => exact .factor ih
  | multiplied _ hc hop hv _ hresult ih ih' => exact .multiplied ih (hc.append x) hop (hv.append x) ih' hresult
  | term _ ih => exact .term ih
  | added _ hc hop hv _ hresult ih ih' => exact .added ih (hc.append x) hop (hv.append x) ih' hresult
  | call hname hopen _ ih =>
    rw [List.append_assoc]
    exact .call hname (hopen.append x) ih
  | last hs _ hclose ih => exact .last (hs.append x) ih (hclose.append x)
  | more hs _ hcomma _ ih ih' => exact .more (hs.append x) ih (hcomma.append x) ih'
  | noElement hclose => exact .noElement (hclose.append x)
  | someElements _ ih => exact .someElements ih
  | list _ ih => exact .list ih
  | map _ ih => exact .map ih
  | entry _ hcolon hv _ ih ih' => exact .entry ih (hcolon.append x) (hv.append x) ih'
  | calledArgument _ ih => exact .calledArgument ih
  | numberArgument _ ih => exact .numberArgument ih
  | string htext => exact .string (htext.append x)
  | boolean =>
    rw [List.append_assoc]
    exact .boolean
  | innerSchedule _ ih => exact .innerSchedule ih
  | interval hnumber => exact .interval (hnumber.append x)
  | plusInterval hnumber => exact .plusInterval (hnumber.append x)
  | calledInterval _ ih => exact .calledInterval ih
  | times hne hdigits hcount =>
    rw [List.append_assoc]
    exact .times hne hdigits hcount
  | forever => exact .forever
  | calledPasses _ ih => exact .calledPasses ih
  | once _ ih => exact .once ih
  | repeated _ hcolon hv _ ih ih' => exact .repeated ih (hcolon.append x) (hv.append x) ih'

theorem StatementText.append {s t : List Char} {a : Statement} (h : StatementText s a t) (x : List Char) :
    StatementText (s ++ x) a (t ++ x) := by
  cases h with
  | intro haction hsign hv hschedule =>
    exact .intro (haction.append x) (hsign.append x) (hv.append x) (hschedule.append x)

/-- A program behind a program is the program of both. -/
theorem ProgramText.append {s t : List Char} {l m : List Statement} (h : ProgramText s l) (h' : ProgramText t m) :
    ProgramText (s ++ t) (l ++ m) := by
  induction h with
  | last hs ha hend => exact .more (hs.append t) (ha.append t) (h'.before (hend.append t))
  | more hs ha _ ih => exact .more (hs.append t) (ha.append t) ih

/-! ## Complaints in longer texts -/

/-- The blanks in front of a program do not count. -/
theorem statements_congr {s t : List Char} (h : skipBlanks s = skipBlanks t) : statements s = statements t := by
  rw [Scan.statements_eq, h, ← Scan.statements_eq]

/-- Behind a statement that a letter follows, the rest of the text is read as it is without it. -/
theorem StatementText.statements_of_error {s t u r : List Char} {a : Statement} {c : Char} (h : StatementText t a u)
    (hs : Blanks s t) (hc : skipBlanks u = c :: r) (halpha : c.isAlpha = true) {e : Complaint}
    (he : statements u = .error e) : statements s = .error e := by
  obtain ⟨rest, hlt, hresult, hrest⟩ := h.reads_of_isAlpha hc halpha
  have hmore : ¬(skipBlanks rest).isEmpty = true := by
    rw [hrest, hc]
    exact Bool.false_ne_true
  rw [Scan.statements_eq, h.skipBlanks_eq hs, hresult]
  refine (if_neg hmore).trans ?_
  rw [statements_congr hrest, he]
  rfl

/-- A complaint about a text that begins with a letter stays the same behind a program. -/
theorem ProgramText.statements_append_of_error {s t r : List Char} {l : List Statement} {c : Char}
    (h : ProgramText s l) (hc : skipBlanks t = c :: r) (halpha : c.isAlpha = true) {e : Complaint}
    (he : statements t = .error e) : statements (s ++ t) = .error e := by
  induction h with
  | last hs ha hend =>
    have hskip := (hend.append t).skipBlanks_eq
    rw [List.nil_append] at hskip
    exact (ha.append t).statements_of_error (hs.append t) (hskip.trans hc) halpha ((statements_congr hskip).trans he)
  | @more _ _ _ _ u hs ha hothers ih =>
    obtain ⟨d, r', hd, hletter⟩ := hothers.exists_head
    have hblanks := (blanks_skipBlanks u).append t
    rw [hd] at hblanks
    have hskip : skipBlanks (u ++ t) = d :: (r' ++ t) := hblanks.skipBlanks_cons (skipBlanks_head hd)
    exact (ha.append t).statements_of_error (hs.append t) hskip hletter ih

/-- The text of a complaint about a program is a last part of it. -/
theorem rest_suffix_of_statements {s : List Char} {c : Complaint} (h : statements s = .error c) : c.rest <:+ s := by
  have hprogram : Scan.Agrees s 0 Scan.program s _ := Scan.agrees_program s
  rw [h] at hprogram
  exact (hprogram (List.suffix_refl s)).1

theorem Complaint.toSyntaxError_append {t : List Char} {c : Complaint} (h : c.rest <:+ t) (s : List Char) :
    (c.toSyntaxError (s ++ t)).detail = (c.toSyntaxError t).detail ∧
      (c.toSyntaxError (s ++ t)).place.offset = utf8Len s + (c.toSyntaxError t).place.offset := by
  obtain ⟨before, rfl⟩ := h
  refine ⟨rfl, ?_⟩
  show (Place.ofRest _ c.rest).offset = utf8Len s + (Place.ofRest _ c.rest).offset
  rw [Place.ofRest, Place.ofRest, ← List.append_assoc, textBefore_append, textBefore_append, Place.after_eq,
    Place.after_eq]
  exact String.utf8Len_append s before

theorem inSource_eq_error_iff {α : Type} {source : String} {read : List Char → Except Complaint α} {e : SyntaxError} :
    inSource source read = .error e ↔ ∃ c, read source.toList = .error c ∧ c.toSyntaxError source.toList = e := by
  rw [inSource]
  cases read source.toList with
  | error c =>
    constructor
    · rintro ⟨⟩
      exact ⟨c, rfl, rfl⟩
    · rintro ⟨_, ⟨⟩, rfl⟩
      rfl
  | ok a =>
    constructor
    · rintro ⟨⟩
    · rintro ⟨_, ⟨⟩, _⟩

/-- Behind a program, a text that begins with a letter gives the statements that it gives by itself, or the complaint
that it gives by itself, further in the text by the bytes of the program. -/
theorem parse_append {s t : String} {l : List Statement} (hs : parseProgram s = .ok l) {c : Char}
    (hc : (skipBlanks t.toList).head? = some c) (hletter : c.isAlpha = true) :
    (∀ m, parseProgram t = .ok m → parseProgram (s ++ t) = .ok (l ++ m)) ∧
      ∀ e, parseProgram t = .error e → ∃ e', parseProgram (s ++ t) = .error e' ∧ e'.detail = e.detail ∧
        e'.place.offset = s.utf8ByteSize + e.place.offset := by
  have hprogram : ProgramText s.toList l := statements_eq_ok_iff.1 (inSource_eq_ok_iff.1 hs)
  obtain ⟨r, hr⟩ := List.head?_eq_some_iff.1 hc
  constructor
  · intro m hm
    have hothers : ProgramText t.toList m := statements_eq_ok_iff.1 (inSource_eq_ok_iff.1 hm)
    refine inSource_eq_ok_iff.2 (statements_eq_ok_iff.2 ?_)
    rw [String.toList_append]
    exact hprogram.append hothers
  · intro e he
    obtain ⟨complaint, hcomplaint, rfl⟩ := inSource_eq_error_iff.1 he
    have hboth := hprogram.statements_append_of_error hr hletter hcomplaint
    rw [← String.toList_append] at hboth
    obtain ⟨hdetail, hoffset⟩ := complaint.toSyntaxError_append (rest_suffix_of_statements hcomplaint) s.toList
    refine ⟨_, inSource_eq_error_iff.2 ⟨complaint, hboth, rfl⟩, ?_, ?_⟩
    · rw [String.toList_append]
      exact hdetail
    · rw [String.toList_append, hoffset, ← String.utf8ByteSize_ofList, String.ofList_toList]

/-- `e5()@[2]:3` -/
def Sample.ringing : Statement :=
  ⟨⟨"e5", []⟩, ⟨[.interval (.int 2)], .times 3⟩⟩

/-- The number of passes at the end of the first text does not go on with the letter of the second one. -/
theorem parse_append_ringing :
    parseProgram "e5()@[2]:3" = .ok [Sample.ringing] ∧
      parseProgram ("e5()@[2]:3" ++ "e5()@[2]:3") = .ok [Sample.ringing, Sample.ringing] ∧
      parseProgram "e5" = .error ⟨"expected '(' after 'e5', found end of input", ⟨2, 1, 3⟩⟩ ∧
      ∃ e, parseProgram ("e5()@[2]:3" ++ "e5") = .error e ∧ e.detail = "expected '(' after 'e5', found end of input" ∧
        e.place.offset = 12 := by
  have hproper : Sample.ringing.Proper :=
    ⟨⟨by decide, trivial⟩, ⟨by decide, trivial⟩, show 0 ≤ (2 : Int64).toInt by decide, trivial⟩
  have htext : "".intercalate ([Sample.ringing].map Statement.text) = "e5()@[2]:3" := by decide +kernel
  have hread : parseProgram "e5()@[2]:3" = .ok [Sample.ringing] := by
    rw [← htext]
    exact (readsAs_intercalate (List.cons_ne_nil _ _) (List.forall_mem_singleton.2 hproper)
      (List.forall_mem_nil _)).ok (List.forall_mem_singleton.2 (by decide))
  have herror : parseProgram "e5" = .error ⟨"expected '(' after 'e5', found end of input", ⟨2, 1, 3⟩⟩ := by
    have hstatement : statement ['e', '5'] = .error ⟨.expected (.argumentList ['e', '5']), []⟩ := by
      rw [statement, call_eq]
      rfl
    have hskip : skipBlanks "e5".toList = ['e', '5'] := by decide
    have hstatements : statements "e5".toList = .error ⟨.expected (.argumentList ['e', '5']), []⟩ := by
      rw [Scan.statements_eq, hskip, hstatement]
      rfl
    rw [parseProgram, inSource, hstatements]
    rfl
  refine ⟨hread, ?_, herror, ?_⟩
  · have hhead : (skipBlanks "e5()@[2]:3".toList).head? = some 'e' := by decide
    exact (parse_append hread hhead (by decide)).1 [Sample.ringing] hread
  · have hhead : (skipBlanks "e5".toList).head? = some 'e' := by decide
    exact (parse_append hread hhead (by decide)).2 _ herror
end Cadence
