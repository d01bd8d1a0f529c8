import Cadence.Proofs.Program.Agreement
import Cadence.Proofs.Program.Grammar

/-!
# Ways into a program text

A part of a program text has other parts in it, some of them behind a bracket that is open there (`Holds`), and a way
into a text goes from part to part (`WayIn`). As many levels are lost on the way as brackets are open at its end
(`WayIn.length_opened`), and these brackets stand one behind the other in the text (`WayIn.brackets`). Where no level
is left, one bracket more exceeds them (`Exceeds`); an item or a number of passes may also be a name that is not called
(`LacksArguments`).
-/

namespace Cadence

/-! ## Ways into a text -/

/-- A part of a category, at the first text and with so many levels left, has another part in it, at the second text
and with so many levels left. Between the two stands at most one bracket that is open there; it is given by the text
that it begins. -/
inductive Holds : Category → Nat → List Char → List (List Char) → Category → Nat → List Char → Prop
  | parentheses {levels : Nat} {r s : List Char} :
    Blanks r s → Holds .factor (levels + 1) ('(' :: r) ['(' :: r] .expression levels s
  | firstFactor {levels : Nat} {s : List Char} : Holds .term levels s [] .factor levels s
  | nextFactor {levels : Nat} {a : Number} {op : Operator} {c : Char} {s t u v : List Char} :
    Derives .term levels s a t → Blanks t (c :: u) → multiplicative? c = some op → Blanks u v →
    Holds .term levels s [] .factor levels v
  | firstTerm {levels : Nat} {s : List Char} : Holds .expression levels s [] .term levels s
  | nextTerm {levels : Nat} {a : Number} {op : Operator} {c : Char} {s t u v : List Char} :
    Derives .expression levels s a t → Blanks t (c :: u) → additive? c = some op → Blanks u v →
    Holds .expression levels s [] .term levels v
  | arguments {levels : Nat} {called t u : List Char} :
    isName called = true → Blanks t ('(' :: u) →
    Holds .call (levels + 1) (called ++ t) ['(' :: u] (.row .argument ')') levels u
  | elements {e : Element} {close : Char} {levels : Nat} {s : List Char} :
    Holds (.row e close) levels s [] (.elements e close) levels s
  | first {e : Element} {close : Char} {levels : Nat} {s t : List Char} :
    Blanks s t → Holds (.elements e close) levels s [] (.element e) levels t
  | others {e : Element} {close : Char} {levels : Nat} {a : e.Value} {s t u v : List Char} :
    Blanks s t → Derives (.element e) levels t a u → Blanks u (',' :: v) →
    Holds (.elements e close) levels s [] (.elements e close) levels v
  | list {levels : Nat} {r : List Char} :
    Holds (.element .argument) (levels + 1) ('[' :: r) ['[' :: r] (.row .argument ']') levels r
  | map {levels : Nat} {r : List Char} :
    Holds (.element .argument) (levels + 1) ('\x7b' :: r) ['\x7b' :: r] (.row .entry '\x7d') levels r
  | key {levels : Nat} {s : List Char} : Holds (.element .entry) levels s [] (.element .argument) levels s
  | value {levels : Nat} {key : Argument} {s t u v : List Char} :
    Derives (.element .argument) levels s key t → Blanks t (':' :: u) → Blanks u v →
    Holds (.element .entry) levels s [] (.element .argument) levels v
  | calledArgument {levels : Nat} {called t u : List Char} :
    isName called = true → Blanks t ('(' :: u) →
    Holds (.element .argument) levels (called ++ t) [] .call levels (called ++ t)
  | numberArgument {levels : Nat} {s : List Char} : Holds (.element .argument) levels s [] .expression levels s
  | innerSchedule {levels : Nat} {s : List Char} : Holds (.element .item) levels s [] .schedule levels s
  | calledInterval {levels : Nat} {s : List Char} : Holds (.element .item) levels s [] .call levels s
  | items {levels : Nat} {r : List Char} :
    Holds .schedule (levels + 1) ('[' :: r) ['[' :: r] (.row .item ']') levels r
  | passes {levels : Nat} {items : List Item} {r t u v : List Char} :
    Derives (.row .item ']') levels r items t → Blanks t (':' :: u) → Blanks u v →
    Holds .schedule (levels + 1) ('[' :: r) ['[' :: r] .passes levels v
  | calledPasses {levels : Nat} {s : List Char} : Holds .passes levels s [] .call levels s

/-- From part to part on the way into a text, with all brackets that are open at its end, the outermost first. -/
inductive WayIn : Category → Nat → List Char → List (List Char) → Category → Nat → List Char → Prop
  | here {c : Category} {levels : Nat} {s : List Char} : WayIn c levels s [] c levels s
  | into {c d e : Category} {m n k : Nat} {s t u : List Char} {opened others : List (List Char)} :
    Holds c m s opened d n t → WayIn d n t others e k u → WayIn c m s (opened ++ others) e k u

/-- Each open bracket takes one level. -/
theorem Holds.length_opened {c d : Category} {m n : Nat} {s t : List Char} {opened : List (List Char)}
    (h : Holds c m s opened d n t) : opened.length + n = m := by
  cases h <;> simp only [List.length_nil, List.length_singleton] <;> omega

theorem WayIn.length_opened {c d : Category} {m n : Nat} {s t : List Char} {opened : List (List Char)}
    (h : WayIn c m s opened d n t) : opened.length + n = m := by
  induction h with
  | here => exact Nat.zero_add _
  | into hholds _ ih =>
    have := hholds.length_opened
    rw [List.length_append]
    omega

/-! ## Brackets in a row -/

theorem Blanks.suffix {s t : List Char} (h : Blanks s t) : t <:+ s := by
  obtain ⟨blanks, _, rfl⟩ := h
  exact List.suffix_append blanks t

theorem NumberText.suffix {signed : Bool} {n : Number} {s t : List Char} (h : NumberText signed n s t) : t <:+ s := by
  obtain ⟨negative, u, numeral, hsign, hnumeral, _⟩ := h
  obtain ⟨v, w, rfl, hfraction, hexponent⟩ := hnumeral.parts
  exact hexponent.suffix.trans (hfraction.suffix.trans ((List.suffix_append _ v).trans hsign.suffix))

theorem QuotedText.suffix {text s t : List Char} (h : QuotedText text s t) : t <:+ s := by
  induction h with
  | close => exact List.suffix_cons _ _
  | plain _ _ _ ih => exact ih.trans (List.suffix_cons _ _)
  | escaped _ ih => exact ih.trans ((List.suffix_cons _ _).trans (List.suffix_cons _ _))

/-- What follows a character of a last part is a last part. -/
theorem suffix_of_cons {c : Char} {r s : List Char} (h : c :: r <:+ s) : r <:+ s :=
  (List.suffix_cons c r).trans h

theorem Derives.suffix {c : Category} {levels : Nat} {s t : List Char} {value : c.Value}
    (h : Derives c levels s value t) : t <:+ s := by
  induction h with
  | number h => exact h.suffix
  | parentheses hr _ hclose ih =>
    exact (suffix_of_cons hclose.suffix).trans (ih.trans (hr.suffix.trans (List.suffix_cons _ _)))
  | factor _ ih | term _ ih | someElements _ ih | calledArgument _ ih | numberArgument _ ih | innerSchedule _ ih
  | calledInterval _ ih | calledPasses _ ih => exact ih
  | multiplied _ hc _ hv _ _ ih ih' | added _ hc _ hv _ _ ih ih' =>
    exact ih'.trans (hv.suffix.trans ((suffix_of_cons hc.suffix).trans ih))
  | call _ hopening _ ih => exact ih.trans ((suffix_of_cons hopening.suffix).trans (List.suffix_append _ _))
  | last hs _ hclose ih => exact (suffix_of_cons hclose.suffix).trans (ih.trans hs.suffix)
  | more hs _ hcomma _ ih ih' => exact ih'.trans ((suffix_of_cons hcomma.suffix).trans (ih.trans hs.suffix))
  | noElement hclose => exact suffix_of_cons hclose.suffix
  | list _ ih | map _ ih | once _ ih => exact ih.trans (List.suffix_cons _ _)
  | entry _ hcolon hv _ ih ih' => exact ih'.trans (hv.suffix.trans ((suffix_of_cons hcolon.suffix).trans ih))
  | string h => exact h.suffix.trans (List.suffix_cons _ _)
  | boolean | times => exact List.suffix_append _ _
  | interval h => exact h.suffix
  | plusInterval h => exact h.suffix.trans (List.suffix_cons _ _)
  | forever => exact List.suffix_cons _ _
  | repeated _ hcolon hv _ ih ih' =>
    exact ih'.trans (hv.suffix.trans ((suffix_of_cons hcolon.suffix).trans (ih.trans (List.suffix_cons _ _))))

/-- A character opens a level. -/
def IsOpening (c : Char) : Prop :=
  c = '[' ∨ c = '\x7b' ∨ c = '('

/-- In the first text stand opening brackets, given by the texts that they begin, one behind the other, and behind them
the second text. -/
inductive Brackets : List Char → List (List Char) → List Char → Prop
  | none {s t : List Char} : t <:+ s → Brackets s [] t
  | next {c : Char} {r s t : List Char} {opened : List (List Char)} :
    IsOpening c → c :: r <:+ s → Brackets r opened t → Brackets s ((c :: r) :: opened) t

theorem Brackets.of_suffix {s t u : List Char} {opened : List (List Char)} (h : Brackets t opened u) (hs : t <:+ s) :
    Brackets s opened u := by
  cases h with
  | none hu => exact .none (hu.trans hs)
  | next hc ho h => exact .next hc (ho.trans hs) h

theorem Brackets.append {s t u : List Char} {opened others : List (List Char)} (h : Brackets s opened t)
    (h' : Brackets t others u) : Brackets s (opened ++ others) u := by
  induction h with
  | none ht => exact h'.of_suffix ht
  | next hc ho _ ih => exact .next hc ho (ih h')

theorem Brackets.suffix {s t : List Char} {opened : List (List Char)} (h : Brackets s opened t) : t <:+ s := by
  induction h with
  | none ht => exact ht
  | next _ ho _ ih => exact ih.trans (suffix_of_cons ho)

/-- The brackets that are open on the way stand in the text. -/
theorem Holds.brackets {c d : Category} {m n : Nat} {s t : List Char} {opened : List (List Char)}
    (h : Holds c m s opened d n t) : Brackets s opened t := by
  cases h with
  | parentheses hr => exact .next (.inr (.inr rfl)) (List.suffix_refl _) (.none hr.suffix)
  | arguments _ hopening =>
    exact .next (.inr (.inr rfl)) (hopening.suffix.trans (List.suffix_append _ _)) (.none (List.suffix_refl _))
  | list | items => exact .next (.inl rfl) (List.suffix_refl _) (.none (List.suffix_refl _))
  | map => exact .next (.inr (.inl rfl)) (List.suffix_refl _) (.none (List.suffix_refl _))
  | passes hrow hcolon hv =>
    exact .next (.inl rfl) (List.suffix_refl _)
      (.none (hv.suffix.trans ((suffix_of_cons hcolon.suffix).trans hrow.suffix)))
  | nextFactor ha hc _ hv | nextTerm ha hc _ hv | value ha hc hv =>
    exact .none (hv.suffix.trans ((suffix_of_cons hc.suffix).trans ha.suffix))
  | first hs => exact .none hs.suffix
  | others hs ha hcomma => exact .none ((suffix_of_cons hcomma.suffix).trans (ha.suffix.trans hs.suffix))
  | firstFactor | firstTerm | elements | key | calledArgument | numberArgument | innerSchedule | calledInterval
  | calledPasses => exact .none (List.suffix_refl _)

theorem WayIn.brackets {c d : Category} {m n : Nat} {s t : List Char} {opened : List (List Char)}
    (h : WayIn c m s opened d n t) : Brackets s opened t := by
  induction h with
  | here => exact .none (List.suffix_refl _)
  | into hholds _ ih => exact hholds.brackets.append ih

/-! ## Ends of the way -/

/-- A part begins with, or a name is followed by, a bracket that stands at the second text. -/
inductive Exceeds : Category → List Char → List Char → Prop
  | parentheses {r : List Char} : Exceeds .factor ('(' :: r) ('(' :: r)
  | arguments {called t u : List Char} :
    isName called = true → Blanks t ('(' :: u) → Exceeds .call (called ++ t) ('(' :: u)
  | list {r : List Char} : Exceeds (.element .argument) ('[' :: r) ('[' :: r)
  | map {r : List Char} : Exceeds (.element .argument) ('\x7b' :: r) ('\x7b' :: r)
  | schedule {r : List Char} : Exceeds .schedule ('[' :: r) ('[' :: r)

/-- A name is followed by blanks, and at the second text by something else than the parenthesis of its arguments. -/
def NotCalled (s rest : List Char) : Prop :=
  ∃ called t, isName called = true ∧ EndsName t ∧ s = called ++ t ∧ rest = skipBlanks t ∧ rest.head? ≠ some '('

/-- An item or a number of passes is a name that is not called. -/
inductive LacksArguments : Category → List Char → List Char → Prop
  | item {s rest : List Char} : NotCalled s rest → LacksArguments (.element .item) s rest
  | passes {s rest : List Char} : NotCalled s rest → LacksArguments .passes s rest

/-- The bracket that exceeds the levels. -/
theorem Exceeds.exists_opening {c : Category} {s rest : List Char} (h : Exceeds c s rest) :
    ∃ d r, rest = d :: r ∧ IsOpening d := by
  cases h with
  | parentheses | arguments => exact ⟨_, _, rfl, .inr (.inr rfl)⟩
  | list | schedule => exact ⟨_, _, rfl, .inl rfl⟩
  | map => exact ⟨_, _, rfl, .inr (.inl rfl)⟩

theorem Exceeds.suffix {c : Category} {s rest : List Char} (h : Exceeds c s rest) : rest <:+ s := by
  cases h with
  | arguments _ hopening => exact hopening.suffix.trans (List.suffix_append _ _)
  | parentheses | list | map | schedule => exact List.suffix_refl _

theorem LacksArguments.suffix {c : Category} {s rest : List Char} (h : LacksArguments c s rest) : rest <:+ s := by
  have hname : NotCalled s rest → rest <:+ s := by
    rintro ⟨called, t, _, _, rfl, rfl, _⟩
    exact (skipBlanks_suffix t).trans (List.suffix_append _ _)
  cases h with
  | item h => exact hname h
  | passes h => exact hname h

end Cadence
