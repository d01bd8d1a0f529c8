import Cadence.Proofs.Program.Tokens

/-!
# The grammar of programs

Which texts derive from which part of the grammar, with the value that the derivation gives (`Derives`). A derivation
takes a part from the front of a text and leaves what stands behind it; between any two tokens there may be blanks. Sums
and products are worked out from left to right, the entries of a map are put into it one after another, and a schedule
without passes is gone through once. The number counts the levels that are left: schedules, lists, maps, the argument
lists of calls and parentheses each take one, and the passes of a schedule stand inside it.

Nothing in the grammar says how a text is to be scanned: that no digit stands behind a number, say, follows from what
may follow it (`Derives.exists_head`, and the completeness of the productions).
-/

namespace Cadence

/-! ## Categories -/

/-- What stands in rows set apart by commas. -/
inductive Element
  | item
  | argument
  /-- A key and a value of a map. -/
  | entry

def Element.Value : Element → Type
  | .item => Item
  | .argument => Argument
  | .entry => Argument × Argument

/-- The parts of the grammar. -/
inductive Category
  | factor
  | term
  | expression
  | call
  | passes
  | schedule
  | element (element : Element)
  /-- One or more elements with commas between them, and a closing bracket. -/
  | elements (element : Element) (close : Char)
  /-- What follows an opening bracket: any number of elements with commas between them, and the closing bracket. -/
  | row (element : Element) (close : Char)

def Category.Value : Category → Type
  | .factor => Number
  | .term => Number
  | .expression => Number
  | .call => Call
  | .passes => Repeat
  | .schedule => Schedule
  | .element e => e.Value
  | .elements e _ => List e.Value
  | .row e _ => List e.Value

/-! ## Derivations -/

/-- A part of a category stands at the front of the first text, with so many levels left; it has the value, and the
second text is what follows it. -/
inductive Derives : (c : Category) → Nat → List Char → c.Value → List Char → Prop
  | number {levels : Nat} {n : Number} {s t : List Char} :
    NumberText true n s t → Derives .factor levels s n t
  | parentheses {levels : Nat} {n : Number} {r s t u : List Char} :
    Blanks r s → Derives .expression levels s n t → Blanks t (')' :: u) → Derives .factor (levels + 1) ('(' :: r) n u
  | factor {levels : Nat} {n : Number} {s t : List Char} :
    Derives .factor levels s n t → Derives .term levels s n t
  | multiplied {levels : Nat} {a b n : Number} {op : Operator} {c : Char} {s t u v w : List Char} :
    Derives .term levels s a t → Blanks t (c :: u) → multiplicative? c = some op → Blanks u v →
    Derives .factor levels v b w → a.apply op b = .ok n → Derives .term levels s n w
  | term {levels : Nat} {n : Number} {s t : List Char} :
    Derives .term levels s n t → Derives .expression levels s n t
  | added {levels : Nat} {a b n : Number} {op : Operator} {c : Char} {s t u v w : List Char} :
    Derives .expression levels s a t → Blanks t (c :: u) → additive? c = some op → Blanks u v →
    Derives .term levels v b w → a.apply op b = .ok n → Derives .expression levels s n w
  | call {levels : Nat} {called t u v : List Char} {arguments : List Argument} :
    isName called = true → Blanks t ('(' :: u) → Derives (.row .argument ')') levels u arguments v →
    Derives .call (levels + 1) (called ++ t) ⟨String.ofList called, arguments⟩ v
  | last {e : Element} {close : Char} {levels : Nat} {a : e.Value} {s t u v : List Char} :
    Blanks s t → Derives (.element e) levels t a u → Blanks u (close :: v) →
    Derives (.elements e close) levels s [a] v
  | more {e : Element} {close : Char} {levels : Nat} {a : e.Value} {others : List e.Value} {s t u v w : List Char} :
    Blanks s t → Derives (.element e) levels t a u → Blanks u (',' :: v) →
    Derives (.elements e close) levels v others w → Derives (.elements e close) levels s (a :: others) w
  | noElement {e : Element} {close : Char} {levels : Nat} {s t : List Char} :
    Blanks s (close :: t) → Derives (.row e close) levels s [] t
  | someElements {e : Element} {close : Char} {levels : Nat} {l : List e.Value} {s t : List Char} :
    Derives (.elements e close) levels s l t → Derives (.row e close) levels s l t
  | list {levels : Nat} {items : List Argument} {r t : List Char} :
    Derives (.row .argument ']') levels r items t →
    Derives (.element .argument) (levels + 1) ('[' :: r) (Argument.list items) t
  | map {levels : Nat} {entries : List (Argument × Argument)} {r t : List Char} :
    Derives (.row .entry '\x7d') levels r entries t →
    Derives (.element .argument) (levels + 1) ('\x7b' :: r) (Argument.map (Entries.ofList entries)) t
  | entry {levels : Nat} {key value : Argument} {s t u v w : List Char} :
    Derives (.element .argument) levels s key t → Blanks t (':' :: u) → Blanks u v →
    Derives (.element .argument) levels v value w → Derives (.element .entry) levels s (key, value) w
  | calledArgument {levels : Nat} {c : Call} {s t : List Char} :
    Derives .call levels s c t → Derives (.element .argument) levels s c.toArgument t
  | numberArgument {levels : Nat} {n : Number} {s t : List Char} :
    Derives .expression levels s n t → Derives (.element .argument) levels s (Argument.literal (.number n)) t
  | string {levels : Nat} {text s t : List Char} :
    QuotedText text s t →
    Derives (.element .argument) levels ('"' :: s) (Argument.literal (.string (String.ofList text))) t
  | boolean {levels : Nat} {b : Bool} {t : List Char} :
    Derives (.element .argument) levels (booleanChars b ++ t) (Argument.literal (.boolean b)) t
  | innerSchedule {levels : Nat} {a : Schedule} {s t : List Char} :
    Derives .schedule levels s a t → Derives (.element .item) levels s a.toItem t
  | interval {levels : Nat} {n : Number} {s t : List Char} :
    NumberText false n s t → Derives (.element .item) levels s (Item.interval n) t
  | plusInterval {levels : Nat} {n : Number} {s t : List Char} :
    NumberText false n s t → Derives (.element .item) levels ('+' :: s) (Item.interval n) t
  | calledInterval {levels : Nat} {c : Call} {s t : List Char} :
    Derives .call levels s c t → Derives (.element .item) levels s (Item.call c) t
  | times {levels : Nat} {digits t : List Char} :
    digits ≠ [] → (∀ c ∈ digits, c.isDigit = true) → Nat.ofDigitChars 10 digits 0 < UInt64.size →
    Derives .passes levels (digits ++ t) (Repeat.times (UInt64.ofNat (Nat.ofDigitChars 10 digits 0))) t
  | forever {levels : Nat} {t : List Char} : Derives .passes levels ('*' :: t) Repeat.forever t
  | calledPasses {levels : Nat} {c : Call} {s t : List Char} :
    Derives .call levels s c t → Derives .passes levels s (Repeat.call c) t
  | once {levels : Nat} {items : List Item} {r t : List Char} :
    Derives (.row .item ']') levels r items t →
    Derives .schedule (levels + 1) ('[' :: r) (Schedule.ofItems items (.times 1)) t
  | repeated {levels : Nat} {items : List Item} {passes : Repeat} {r t u v w : List Char} :
    Derives (.row .item ']') levels r items t → Blanks t (':' :: u) → Blanks u v →
    Derives .passes levels v passes w → Derives .schedule (levels + 1) ('[' :: r) (Schedule.ofItems items passes) w

/-- A call, an at sign and a schedule. -/
inductive StatementText : List Char → Statement → List Char → Prop
  | intro {action : Call} {schedule : Schedule} {s t u v w : List Char} :
    Derives .call maxNesting s action t → Blanks t ('@' :: u) → Blanks u v →
    Derives .schedule maxNesting v schedule w → StatementText s ⟨action, schedule⟩ w

/-- One or more statements, up to the end of the text. -/
inductive ProgramText : List Char → List Statement → Prop
  | last {a : Statement} {s t u : List Char} :
    Blanks s t → StatementText t a u → Blanks u [] → ProgramText s [a]
  | more {a : Statement} {others : List Statement} {s t u : List Char} :
    Blanks s t → StatementText t a u → ProgramText u others → ProgramText s (a :: others)

theorem ProgramText.before {s t : List Char} {l : List Statement} (h : ProgramText t l) (hblanks : Blanks s t) :
    ProgramText s l := by
  cases h with
  | last hstart ha hend => exact .last (hblanks.trans hstart) ha hend
  | more hstart ha hothers => exact .more (hblanks.trans hstart) ha hothers

/-- A text as a whole is of a category, with blanks around it. -/
def WholeText (c : Category) (s : List Char) (value : c.Value) : Prop :=
  ∃ t u, Blanks s t ∧ Derives c maxNesting t value u ∧ Blanks u []

/-! ## How parts begin -/

/-- The characters that a part can begin with. A row can begin with any. -/
def Category.Starts : Category → Char → Prop
  | .factor, c | .term, c | .expression, c => startsNumber c = true
  | .call, c => c.isAlpha = true
  | .passes, c => c = '*' ∨ c.isDigit = true ∨ c.isAlpha = true
  | .schedule, c => c = '['
  | .element .item, c => c = '[' ∨ c = '+' ∨ c = '.' ∨ c.isDigit = true ∨ c.isAlpha = true
  | .element .argument, c | .element .entry, c =>
    c = '[' ∨ c = '\x7b' ∨ c = '"' ∨ c.isAlpha = true ∨ startsNumber c = true
  | .elements _ _, _ | .row _ _, _ => True

theorem NumberText.starts {signed : Bool} {n : Number} {s t : List Char} (h : NumberText signed n s t) :
    ∃ c r, s = c :: r ∧ startsNumber c = true := by
  obtain ⟨c, r, hs, hc⟩ := h.exists_head
  refine ⟨c, r, hs, startsNumber_iff.2 ?_⟩
  rcases hc with hc | hc | ⟨_, hc | hc⟩
  · exact .inl hc
  · exact .inr (.inl hc)
  · exact .inr (.inr (.inl hc))
  · exact .inr (.inr (.inr (.inl hc)))

/-- A text that derives from a category is not empty, and begins as the category does. -/
theorem Derives.exists_head {c : Category} {levels : Nat} {s t : List Char} {value : c.Value}
    (h : Derives c levels s value t) : ∃ d r, s = d :: r ∧ c.Starts d := by
  induction h with
  | number hnumber => exact hnumber.starts
  | parentheses => exact ⟨'(', _, rfl, startsNumber_iff.2 (.inr (.inr (.inr (.inr rfl))))⟩
  | factor _ ih => exact ih
  | multiplied _ _ _ _ _ _ ih _ => exact ih
  | term _ ih => exact ih
  | added _ _ _ _ _ _ ih _ => exact ih
  | call hname _ _ _ =>
    obtain ⟨d, r, rfl, hd⟩ := exists_alpha_of_isName hname
    exact ⟨d, _, rfl, hd⟩
  | last hblanks _ _ ih =>
    obtain ⟨d, r, rfl, _⟩ := ih
    obtain ⟨d', r', hs⟩ := hblanks.exists_cons
    exact ⟨d', r', hs, trivial⟩
  | more hblanks _ _ _ ih _ =>
    obtain ⟨d, r, rfl, _⟩ := ih
    obtain ⟨d', r', hs⟩ := hblanks.exists_cons
    exact ⟨d', r', hs, trivial⟩
  | noElement hblanks =>
    obtain ⟨d', r', hs⟩ := hblanks.exists_cons
    exact ⟨d', r', hs, trivial⟩
  | someElements _ ih => exact ih
  | list => exact ⟨'[', _, rfl, .inl rfl⟩
  | map => exact ⟨'\x7b', _, rfl, .inr (.inl rfl)⟩
  | entry _ _ _ _ ih _ => exact ih
  | calledArgument _ ih =>
    obtain ⟨d, r, hs, hd⟩ := ih
    exact ⟨d, r, hs, .inr (.inr (.inr (.inl hd)))⟩
  | numberArgument _ ih =>
    obtain ⟨d, r, hs, hd⟩ := ih
    exact ⟨d, r, hs, .inr (.inr (.inr (.inr hd)))⟩
  | string => exact ⟨'"', _, rfl, .inr (.inr (.inl rfl))⟩
  | @boolean levels b t =>
    cases b with
    | true => exact ⟨'t', _, rfl, .inr (.inr (.inr (.inl (by decide))))⟩
    | false => exact ⟨'f', _, rfl, .inr (.inr (.inr (.inl (by decide))))⟩
  | innerSchedule _ ih =>
    obtain ⟨d, r, hs, hd⟩ := ih
    exact ⟨d, r, hs, .inl hd⟩
  | interval hnumber =>
    obtain ⟨d, r, hs, hd⟩ := hnumber.exists_head
    rcases hd with hd | hd | ⟨hsigned, _⟩
    · exact ⟨d, r, hs, .inr (.inr (.inr (.inl hd)))⟩
    · exact ⟨d, r, hs, .inr (.inr (.inl hd))⟩
    · exact absurd hsigned Bool.false_ne_true
  | plusInterval => exact ⟨'+', _, rfl, .inr (.inl rfl)⟩
  | calledInterval _ ih =>
    obtain ⟨d, r, hs, hd⟩ := ih
    exact ⟨d, r, hs, .inr (.inr (.inr (.inr hd)))⟩
  | times hne hdigits _ =>
    obtain ⟨d, r, rfl⟩ := List.exists_cons_of_ne_nil hne
    exact ⟨d, _, rfl, .inr (.inl (hdigits d List.mem_cons_self))⟩
  | forever => exact ⟨'*', _, rfl, .inl rfl⟩
  | calledPasses _ ih =>
    obtain ⟨d, r, hs, hd⟩ := ih
    exact ⟨d, r, hs, .inr (.inr hd)⟩
  | once => exact ⟨'[', _, rfl, rfl⟩
  | repeated => exact ⟨'[', _, rfl, rfl⟩

/-- A part that is no row. -/
def Category.IsSingle : Category → Prop
  | .elements _ _ => False
  | .row _ _ => False
  | _ => True

/-- A character that a part begins with is neither blank nor a closing bracket, if the part is no row. -/
theorem begins_of_starts {c : Category} {d : Char} (hd : c.Starts d) (hc : c.IsSingle) (r : List Char) :
    Begins (d :: r) := by
  have hnumber : startsNumber d = true → Begins (d :: r) := by
    intro h
    rcases startsNumber_iff.1 h with h | rfl | rfl | rfl | rfl
    · exact begins_of_isDigit h r
    all_goals exact begins_of_range (by decide) (by decide) (by decide)
  have hopen : d ∈ ['[', '*', '+', '.', '"', '\x7b'] → Begins (d :: r) := by
    intro h
    simp only [List.mem_cons, List.not_mem_nil, or_false] at h
    rcases h with rfl | rfl | rfl | rfl | rfl | rfl <;>
      exact ⟨_, r, rfl, by decide, by decide⟩
  have hargument : (Category.element .argument).Starts d → Begins (d :: r) := by
    intro h
    rcases h with rfl | rfl | rfl | h | h
    · exact hopen (by decide)
    · exact hopen (by decide)
    · exact hopen (by decide)
    · exact begins_of_isAlpha h r
    · exact hnumber h
  cases c with
  | factor => exact hnumber hd
  | term => exact hnumber hd
  | expression => exact hnumber hd
  | call => exact begins_of_isAlpha hd r
  | passes =>
    rcases hd with rfl | hd | hd
    · exact hopen (by decide)
    · exact begins_of_isDigit hd r
    · exact begins_of_isAlpha hd r
  | schedule =>
    cases hd
    exact hopen (by decide)
  | element e =>
    cases e with
    | item =>
      rcases hd with rfl | rfl | rfl | hd | hd
      · exact hopen (by decide)
      · exact hopen (by decide)
      · exact hopen (by decide)
      · exact begins_of_isDigit hd r
      · exact begins_of_isAlpha hd r
    | argument => exact hargument hd
    | entry => exact hargument hd
  | elements e close => exact hc.elim
  | row e close => exact hc.elim

end Cadence
