import Mathlib.Data.Bool.AllAny
import Cadence.Proofs.Program.RoundTrip
import Cadence.Proofs.Program.Soundness

/-!
# What derives is read

Every part that derives from the grammar is read with its value, if what follows it does not go on with it
(`Category.Reads`, `Derives.reads`). The induction is on the derivation. What may follow a part is known from the part
around it, and rules out that the last token of the part is scanned further than it goes. Sums and products derive from
the left, while they are read as a first operand and the rest of a chain; so the statement about them says what becomes
of any rest that is read behind them. Together with soundness this gives the main result: the texts that are read are
those that derive from the grammar, with the same value (`parse_iff_derives`).
-/

namespace Cadence

variable {α β : Type}

/-! ## What a result reaches -/

/-- A result is the value, and what is left is the given text, up to blanks in front of it. -/
def Reaches {bound : Nat} (result : Except Complaint (Reading α bound)) (value : α) (t : List Char) : Prop :=
  ∃ rest, ∃ hlt : rest.length < bound, result = .ok ⟨value, rest, hlt⟩ ∧ skipBlanks rest = skipBlanks t

theorem Gives.reaches {bound : Nat} {result : Except Complaint (Reading α bound)} {value : α} {t : List Char}
    (h : Gives True value t result) : Reaches result value t := by
  obtain ⟨hlt, hresult⟩ := h.ok trivial
  exact ⟨t, hlt, hresult, rfl⟩

theorem Reaches.bind {bound bound' : Nat} {result : Except Complaint (Reading α bound)} {value : α} {t : List Char}
    (h : Reaches result value t) {f : Reading α bound → Except Complaint (Reading β bound')} {value' : β}
    {t' : List Char} (hf : ∀ rest hlt, skipBlanks rest = skipBlanks t → Reaches (f ⟨value, rest, hlt⟩) value' t') :
    Reaches (result >>= f) value' t' := by
  obtain ⟨rest, hlt, rfl, hrest⟩ := h
  exact hf rest hlt hrest

/-- Behind a part that is read exactly, a result reaches what its second part reaches. -/
theorem Gives.then {bound bound' : Nat} {result : Except Complaint (Reading α bound)} {value : α} {t : List Char}
    (h : Gives True value t result) {f : Reading α bound → Except Complaint (Reading β bound')} {value' : β}
    {t' : List Char} (hf : ∀ hlt, Reaches (f ⟨value, t, hlt⟩) value' t') : Reaches (result >>= f) value' t' := by
  obtain ⟨hlt, rfl⟩ := h.ok trivial
  exact hf hlt

theorem Reaches.pure {bound : Nat} {value : α} {rest t : List Char} {hlt : rest.length < bound}
    (h : skipBlanks rest = skipBlanks t) : Reaches (.ok ⟨value, rest, hlt⟩ : Except Complaint (Reading α bound)) value t :=
  ⟨rest, hlt, rfl, h⟩

/-! ## What follows -/

/-- What follows, behind blanks, is nothing or begins with one of some characters. -/
def Follows (closers : List Char) (t : List Char) : Prop :=
  ∀ c ∈ (skipBlanks t).head?, c ∈ closers

theorem follows_of_blanks {closers t u : List Char} {c : Char} (h : Blanks t (c :: u)) (hblank : isBlank c = false)
    (hc : c ∈ closers) : Follows closers t := by
  rw [Follows, h.skipBlanks_cons hblank]
  rintro _ ⟨⟩
  exact hc

theorem Follows.mono {closers others t : List Char} (h : Follows closers t) (hsub : closers ⊆ others) :
    Follows others t :=
  fun c hc => hsub (h c hc)

/-- What holds of blanks and of the characters that may follow holds of the character that does. -/
theorem Follows.head {closers t : List Char} (h : Follows closers t) {P : Char → Prop}
    (hblank : ∀ c, isBlank c = true → P c) (hclosers : ∀ c ∈ closers, P c) : ∀ c ∈ t.head?, P c := by
  intro c hc
  obtain ⟨r, rfl⟩ := List.head?_eq_some_iff.1 hc
  cases hb : isBlank c with
  | true => exact hblank c hb
  | false =>
    rw [Follows, skipBlanks_cons hb] at h
    exact hclosers c (h c rfl)

theorem isDigit_eq_false_of_isBlank {c : Char} (h : isBlank c = true) : c.isDigit = false := by
  rw [← Bool.not_eq_true]
  intro hdigit
  have hrange := toNat_of_isDigit hdigit
  rw [isBlank_eq_false (by omega) (by omega)] at h
  exact Bool.false_ne_true h

theorem isNamePart_eq_false_of_isBlank {c : Char} (h : isBlank c = true) : isNamePart c = false := by
  rw [← Bool.not_eq_true]
  intro hpart
  have hrange : 0x20 < c.toNat ∧ c.toNat < 0x80 := by
    simp only [isNamePart, Char.isAlphanum, Bool.or_eq_true, beq_iff_eq] at hpart
    rcases hpart with (halpha | hdigit) | rfl
    · have := toNat_of_isAlpha halpha
      omega
    · have := toNat_of_isDigit hdigit
      omega
    · decide
  rw [isBlank_eq_false hrange.1 hrange.2] at h
  exact Bool.false_ne_true h

/-- What may follow a factor or a term. -/
def numberClosers : List Char :=
  ['+', '-', '*', '/', ',', ':', ')', ']', '\x7d']

/-- What may follow an expression, or a part of one that only sums can go on with. -/
def sumClosers : List Char :=
  ['+', '-', ',', ':', ')', ']', '\x7d']

theorem Follows.ends {t : List Char} (h : Follows numberClosers t) : Numeral.Ends t := by
  refine h.head ?_ (List.all_iff_forall_prop.1 rfl)
  intro c hc
  refine ⟨isDigit_eq_false_of_isBlank hc, ?_, ?_, ?_⟩
  all_goals
    rintro rfl
    exact absurd hc (by decide)

theorem Follows.multiplicative? {t : List Char} (h : Follows sumClosers t) :
    ∀ c ∈ (skipBlanks t).head?, multiplicative? c = none := by
  intro c hc
  have hall : ∀ c ∈ sumClosers, Cadence.multiplicative? c = none := List.all_iff_forall_prop.1 rfl
  exact hall c (h c hc)

theorem multiplicative?_closes {c : Char} {op : Operator} (h : multiplicative? c = some op) :
    isBlank c = false ∧ c ∈ numberClosers := by
  have hoperator : c = '*' ∨ c = '/' := by
    unfold multiplicative? at h
    split at h <;> simp at h ⊢
  rcases hoperator with rfl | rfl <;> decide

theorem additive?_closes {c : Char} {op : Operator} (h : additive? c = some op) :
    isBlank c = false ∧ c ∈ sumClosers := by
  have hoperator : c = '+' ∨ c = '-' := by
    unfold additive? at h
    split at h <;> simp at h ⊢
  rcases hoperator with rfl | rfl <;> decide

/-! ## Chains -/

section Chains

variable {operator? : Char → Option Operator} {operand : Production Number}

/-- Where no operator follows, a chain ends. -/
theorem chainFrom_ends {n : Number} {rest t : List Char} (hrest : skipBlanks rest = skipBlanks t)
    (h : ∀ c ∈ (skipBlanks t).head?, operator? c = none) : Reaches (chainFrom operator? operand n rest) n t := by
  rw [chainFrom]
  split
  · next heq => exact Reaches.pure (by rw [← hrest, heq]; rfl)
  · next c r heq =>
    have hnone : operator? c = none := by
      rw [← hrest, heq] at h
      exact h c rfl
    have hblank : isBlank c = false := skipBlanks_head heq
    dsimp only
    split
    · exact Reaches.pure (by rw [skipBlanks_cons hblank, ← heq, hrest])
    · next op hop =>
      rw [hnone] at hop
      cases hop

/-- Behind an operator, a chain goes on with an operand. -/
theorem chainFrom_goesOn {a b n m : Number} {op : Operator} {c : Char} {rest u w x : List Char}
    (hrest : skipBlanks rest = c :: u) (hop : operator? c = some op) (hoperand : Reaches (operand (skipBlanks u)) b w)
    (hresult : a.apply op b = .ok n)
    (hend : ∀ rest, skipBlanks rest = skipBlanks w → Reaches (chainFrom operator? operand n rest) m x) :
    Reaches (chainFrom operator? operand a rest) m x := by
  rw [chainFrom]
  split
  · next heq =>
    rw [hrest] at heq
    cases heq
  · next c' r heq =>
    rw [hrest] at heq
    cases heq
    dsimp only
    split
    · next hnone =>
      rw [hop] at hnone
      cases hnone
    · next op' hop' =>
      rw [hop] at hop'
      cases hop'
      refine hoperand.bind fun rest' hlt hrest' => ?_
      dsimp only
      split
      · next hfault =>
        rw [hresult] at hfault
        cases hfault
      · next result hresult' =>
        rw [hresult] at hresult'
        cases hresult'
        exact (hend rest' hrest').bind fun rest'' _ hrest'' => Reaches.pure hrest''

/-- A chain is its first operand with what is read behind it. -/
theorem chain_reaches {n m : Number} {s t x : List Char} (hoperand : Reaches (operand s) n t)
    (hend : ∀ rest, skipBlanks rest = skipBlanks t → Reaches (chainFrom operator? operand n rest) m x) :
    Reaches (chain operator? operand s) m x :=
  hoperand.bind fun rest _ hrest => (hend rest hrest).bind fun _ _ hrest' => Reaches.pure hrest'

end Chains

/-! ## What is read -/

/-- The production for an element, with so many levels left. -/
def Element.production : (e : Element) → Nat → Production e.Value
  | .item, levels => itemOf (schedule levels) (call levels .item)
  | .argument, levels => Cadence.argument levels
  | .entry, levels => Cadence.entry (Cadence.argument levels)

/-- What may follow an element. -/
def Element.closers : Element → List Char
  | .item => [',', ']']
  | .argument => [',', ':', ')', ']', '\x7d']
  | .entry => [',', '\x7d']

/-- A part of a category is read, if what follows does not go on with it. Of a term and an expression it is said what
becomes of a chain of which they are the first part. -/
def Category.Reads : (c : Category) → Nat → List Char → c.Value → List Char → Prop
  | .factor, levels, s, n, t => Follows numberClosers t → Reaches (Cadence.factor levels s) n t
  | .term, levels, s, n, t => Follows numberClosers t → ∀ m x,
    (∀ rest, skipBlanks rest = skipBlanks t → Reaches (chainFrom multiplicative? (Cadence.factor levels) n rest) m x) →
    Reaches (chain multiplicative? (Cadence.factor levels) s) m x
  | .expression, levels, s, n, t => Follows sumClosers t → ∀ m x,
    (∀ rest, skipBlanks rest = skipBlanks t →
      Reaches (chainFrom additive? (chain multiplicative? (Cadence.factor levels)) n rest) m x) →
    Reaches (Cadence.expression levels s) m x
  | .call, levels, s, c, t => ∀ what, Reaches (Cadence.call levels what s) c t
  | .passes, levels, s, p, t => Numeral.EndsDigits t → Reaches (passesOf (Cadence.call levels .passes) s) p t
  | .schedule, levels, s, a, t =>
    Numeral.EndsDigits t → (skipBlanks t).head? ≠ some ':' → Reaches (Cadence.schedule levels s) a t
  | .element e, levels, s, a, t => Follows e.closers t → Reaches (e.production levels s) a t
  | .elements e close, levels, s, l, t =>
    (∃ d r, skipBlanks s = d :: r ∧ d ∉ [')', ']', '\x7d']) ∧
      (close ∈ [')', ']', '\x7d'] → close ∈ e.closers → ∀ what,
        Reaches (Cadence.elements (e.production levels) close what s) l t)
  | .row e close, levels, s, l, t =>
    close ∈ [')', ']', '\x7d'] → close ∈ e.closers → ∀ what, Reaches (delimited (e.production levels) close what s) l t

theorem Derives.begins {c : Category} {levels : Nat} {s t : List Char} {value : c.Value}
    (h : Derives c levels s value t) (hc : c.IsSingle) :
    Begins s := by
  obtain ⟨d, r, rfl, hd⟩ := h.exists_head
  exact begins_of_starts hd hc r

theorem Begins.skipBlanks_eq {r s : List Char} (h : Begins s) (hblanks : Blanks r s) : Cadence.skipBlanks r = s := by
  have hskip := h.skipBlanks []
  rw [List.append_nil] at hskip
  rw [hblanks.skipBlanks_eq, hskip]

/-- Blanks in front of a part that is no row are skipped. -/
theorem Derives.skipBlanks_eq {c : Category} {levels : Nat} {r s t : List Char} {value : c.Value}
    (h : Derives c levels s value t) (hc : c.IsSingle)
    (hblanks : Blanks r s) : skipBlanks r = s :=
  (h.begins hc).skipBlanks_eq hblanks

theorem Category.Reads.expression_reaches {levels : Nat} {s t : List Char} {n : Number}
    (h : Category.Reads .expression levels s n t) (ht : Follows [',', ':', ')', ']', '\x7d'] t) :
    Reaches (Cadence.expression levels s) n t := by
  refine h (ht.mono (by decide)) n t fun rest hrest => chainFrom_ends hrest ?_
  intro c hc
  have hall : ∀ c ∈ [',', ':', ')', ']', '\x7d'], additive? c = none := List.all_iff_forall_prop.1 rfl
  exact hall c (ht c hc)

theorem Category.Reads.term_reaches {levels : Nat} {s t : List Char} {n : Number}
    (h : Category.Reads .term levels s n t) (ht : Follows sumClosers t) :
    Reaches (chain multiplicative? (Cadence.factor levels) s) n t :=
  h (ht.mono (by decide)) n t fun _ hrest => chainFrom_ends hrest ht.multiplicative?

/-! ## Numbers, sums and products -/

section Numbers

variable {levels : Nat} {a b n : Number} {op : Operator} {c : Char} {r s t u v w : List Char}

theorem reads_number (h : NumberText true n s t) : Category.Reads .factor levels s n t := by
  intro ht
  obtain ⟨d, r, rfl, hd⟩ := h.exists_head
  have hopen : d ≠ '(' := by
    rintro rfl
    rcases hd with hd | hd | ⟨_, hd | hd⟩ <;> exact absurd hd (by decide)
  rw [factor_of_ne hopen]
  exact (h.reads ht.ends).reaches

theorem reads_parentheses (hr : Blanks r s) (h : Derives .expression levels s n t)
    (hread : Category.Reads .expression levels s n t) (hclose : Blanks t (')' :: u)) :
    Category.Reads .factor (levels + 1) ('(' :: r) n u := by
  intro _
  have hskip : skipBlanks r = s := h.skipBlanks_eq trivial hr
  have hinner := hread.expression_reaches (follows_of_blanks hclose (by decide) (by decide))
  rw [factor]
  refine Reaches.bind (t := t) (by rw [hskip]; exact hinner) fun rest hlt hrest => ?_
  rw [hclose.skipBlanks_cons (by decide)] at hrest
  have hmark := gives_mark ')' .parenthesisEnd u
  rw [← hrest] at hmark
  exact hmark.then fun _ => Reaches.pure rfl

theorem reads_term_of_factor (hread : Category.Reads .factor levels s n t) : Category.Reads .term levels s n t :=
  fun ht _ _ hend => chain_reaches (hread ht) hend

theorem reads_multiplied (hfirst : Category.Reads .term levels s a t) (hc : Blanks t (c :: u))
    (hop : multiplicative? c = some op) (hv : Blanks u v) (h : Derives .factor levels v b w)
    (hread : Category.Reads .factor levels v b w) (hresult : a.apply op b = .ok n) :
    Category.Reads .term levels s n w := by
  intro hw m x hend
  obtain ⟨hblank, hmem⟩ := multiplicative?_closes hop
  have hoperand := hread hw
  rw [← h.skipBlanks_eq trivial hv] at hoperand
  refine hfirst (follows_of_blanks hc hblank hmem) m x fun rest hrest => ?_
  rw [hc.skipBlanks_cons hblank] at hrest
  exact chainFrom_goesOn hrest hop hoperand hresult hend

theorem reads_expression_of_term (hread : Category.Reads .term levels s n t) : Category.Reads .expression levels s n t :=
  fun ht _ _ hend => chain_reaches (hread.term_reaches ht) hend

theorem reads_added (hfirst : Category.Reads .expression levels s a t) (hc : Blanks t (c :: u))
    (hop : additive? c = some op) (hv : Blanks u v) (h : Derives .term levels v b w)
    (hread : Category.Reads .term levels v b w) (hresult : a.apply op b = .ok n) :
    Category.Reads .expression levels s n w := by
  intro hw m x hend
  obtain ⟨hblank, hmem⟩ := additive?_closes hop
  have hoperand := hread.term_reaches hw
  rw [← h.skipBlanks_eq trivial hv] at hoperand
  refine hfirst (follows_of_blanks hc hblank hmem) m x fun rest hrest => ?_
  rw [hc.skipBlanks_cons hblank] at hrest
  exact chainFrom_goesOn hrest hop hoperand hresult hend

end Numbers

/-! ## Rows -/

section Rows

variable {e : Element} {close : Char} {levels : Nat} {a : e.Value} {l : List e.Value} {s t u v w : List Char}

theorem isBlank_closing {close : Char} (h : close ∈ [')', ']', '\x7d']) : isBlank close = false := by
  have hall : ∀ c ∈ [')', ']', '\x7d'], isBlank c = false := List.all_iff_forall_prop.1 rfl
  exact hall close h

theorem exists_head_of_blanks (hs : Blanks s t) (h : Derives (.element e) levels t a u) :
    ∃ d r, skipBlanks s = d :: r ∧ d ∉ [')', ']', '\x7d'] := by
  have hskip := h.skipBlanks_eq trivial hs
  obtain ⟨d, r, rfl, _, hd⟩ := h.begins trivial
  exact ⟨d, r, hskip, hd⟩

theorem reads_last (hs : Blanks s t) (h : Derives (.element e) levels t a u)
    (hread : Category.Reads (.element e) levels t a u) (hclose : Blanks u (close :: v)) :
    Category.Reads (.elements e close) levels s [a] v := by
  refine ⟨exists_head_of_blanks hs h, ?_⟩
  intro hclosing hmem what
  have hblank := isBlank_closing hclosing
  have hfirst := hread (follows_of_blanks hclose hblank hmem)
  rw [← h.skipBlanks_eq trivial hs] at hfirst
  rw [elements]
  refine hfirst.bind fun rest hlt hrest => ?_
  rw [hclose.skipBlanks_cons hblank] at hrest
  dsimp only
  split
  · next heq =>
    rw [hrest] at heq
    cases heq
  · next c r heq =>
    rw [hrest] at heq
    cases heq
    have hcomma : close ≠ ',' := by
      rintro rfl
      exact absurd hclosing (by decide)
    rw [if_neg hcomma, if_pos rfl]
    exact Reaches.pure rfl

theorem reads_more (hs : Blanks s t) (h : Derives (.element e) levels t a u)
    (hread : Category.Reads (.element e) levels t a u) (hcomma : Blanks u (',' :: v))
    (hothers : Category.Reads (.elements e close) levels v l w) :
    Category.Reads (.elements e close) levels s (a :: l) w := by
  refine ⟨exists_head_of_blanks hs h, ?_⟩
  intro hclosing hmem what
  have hblank : isBlank ',' = false := by decide
  have hmem' : ',' ∈ e.closers := by
    cases e <;> decide
  have hfirst := hread (follows_of_blanks hcomma hblank hmem')
  rw [← h.skipBlanks_eq trivial hs] at hfirst
  rw [elements]
  refine hfirst.bind fun rest hlt hrest => ?_
  rw [hcomma.skipBlanks_cons hblank] at hrest
  dsimp only
  split
  · next heq =>
    rw [hrest] at heq
    cases heq
  · next c r heq =>
    rw [hrest] at heq
    cases heq
    rw [if_pos rfl]
    exact (hothers.2 hclosing hmem what).bind fun rest' _ hrest' => Reaches.pure hrest'

theorem reads_noElement (hclose : Blanks s (close :: t)) : Category.Reads (.row e close) levels s [] t := by
  intro hclosing _ what
  have hskip := hclose.skipBlanks_cons (isBlank_closing hclosing)
  unfold delimited
  split
  · next c r heq =>
    rw [hskip] at heq
    cases heq
    rw [if_pos rfl]
    exact Reaches.pure rfl
  · next heq =>
    rw [hskip] at heq
    cases heq

theorem reads_someElements (hread : Category.Reads (.elements e close) levels s l t) :
    Category.Reads (.row e close) levels s l t := by
  intro hclosing hmem what
  obtain ⟨⟨d, r, hskip, hd⟩, helements⟩ := hread
  unfold delimited
  split
  · next c r' heq =>
    rw [hskip] at heq
    cases heq
    have hne : d ≠ close := by
      rintro rfl
      exact hd hclosing
    rw [if_neg hne]
    exact helements hclosing hmem what
  · exact helements hclosing hmem what

end Rows

/-! ## Calls and arguments -/

section Arguments

variable {levels : Nat} {r s t u v w : List Char}

theorem endsName_of_blanks {c : Char} (h : Blanks t (c :: u)) (hblank : isBlank c = false)
    (hc : isNamePart c = false) : EndsName t :=
  (follows_of_blanks h hblank (List.mem_singleton_self c)).head (fun _ => isNamePart_eq_false_of_isBlank)
    (List.forall_mem_singleton.2 hc)

theorem reads_calling {called : List Char} {arguments : List Argument} (hname : isName called = true)
    (hopen : Blanks t ('(' :: u)) (hread : Category.Reads (.row .argument ')') levels u arguments v) :
    Category.Reads .call (levels + 1) (called ++ t) ⟨String.ofList called, arguments⟩ v := by
  intro what
  have hends : EndsName t := endsName_of_blanks hopen (by decide) (by decide)
  have hlist : Reaches (argumentList (some (argument levels)) called ('(' :: u)) arguments v :=
    (gives_mark '(' (.argumentList called) u).then fun _ =>
      (hread (by decide) (by decide) .argumentListEnd).bind fun _ _ hrest => Reaches.pure hrest
  rw [← hopen.skipBlanks_cons (by decide)] at hlist
  exact (gives_name hname what hends).then fun _ => hlist.bind fun _ _ hrest => Reaches.pure hrest

theorem reads_list {items : List Argument} (hread : Category.Reads (.row .argument ']') levels r items t) :
    Category.Reads (.element .argument) (levels + 1) ('[' :: r) (Argument.list items) t :=
  fun _ => (hread (by decide) (by decide) .listEnd).bind fun _ _ hrest => Reaches.pure hrest

theorem reads_map {entries : Entries} (hread : Category.Reads (.row .entry '\x7d') levels r entries t) :
    Category.Reads (.element .argument) (levels + 1) ('\x7b' :: r) (Argument.map (Entries.ofList entries)) t :=
  fun _ => (hread (by decide) (by decide) .mapEnd).bind fun _ _ hrest => Reaches.pure hrest

theorem reads_entry {key value : Argument} (hkey : Category.Reads (.element .argument) levels s key t)
    (hcolon : Blanks t (':' :: u)) (hv : Blanks u v) (h : Derives (.element .argument) levels v value w)
    (hvalue : Category.Reads (.element .argument) levels v value w) :
    Category.Reads (.element .entry) levels s (key, value) w := by
  intro hw
  have hsecond : Reaches (argument levels v) value w := hvalue (hw.mono (by decide))
  rw [← h.skipBlanks_eq trivial hv] at hsecond
  refine (hkey (follows_of_blanks hcolon (by decide) (by decide))).bind fun rest _ hrest => ?_
  rw [hcolon.skipBlanks_cons (by decide)] at hrest
  have hmark := gives_mark ':' .mapColon u
  rw [← hrest] at hmark
  exact hmark.then fun _ => hsecond.bind fun _ _ hrest' => Reaches.pure hrest'

/-- A call that is read is read as a word. -/
theorem word_of_callOf {inner : Option (Production Argument)} {c : Call}
    (h : Reaches (callOf inner .argument s) c t) : Reaches (word inner s) c.toArgument t := by
  obtain ⟨rest, hlt, hcall, hrest⟩ := h
  obtain ⟨called, rest', hlt', hname, harguments⟩ := exists_of_bind_eq_ok hcall
  obtain ⟨arguments, rest'', hlt'', hlist, _⟩ := exists_of_bind_eq_ok harguments
  -- a list of arguments was read, so the word does not stand for itself
  have hopen : (skipBlanks rest').head? = some '(' := by
    cases inner with
    | none => cases hlist
    | some argument =>
      obtain ⟨_, _, _, hmark, _⟩ := exists_of_bind_eq_ok hlist
      have hcons := eq_cons_of_mark hmark
      dsimp only at hcons
      rw [hcons]
      rfl
  have hname : Gives True called rest' (name .argument s) := ⟨fun _ => ⟨hlt', hname⟩, fun h => absurd trivial h⟩
  refine hname.then fun _ => ?_
  rw [if_pos hopen]
  have hcall : Reaches (callOf inner .argument s) c t := ⟨rest, hlt, hcall, hrest⟩
  exact hcall.bind fun _ _ hrest => Reaches.pure hrest

theorem reads_calledArgument {c : Call} (h : Derives .call levels s c t) (hread : Category.Reads .call levels s c t) :
    Category.Reads (.element .argument) levels s c.toArgument t := by
  intro _
  obtain ⟨d, r, rfl, hd⟩ := h.exists_head
  have hcall := hread .argument
  rw [call_eq] at hcall
  show Reaches (argument levels (d :: r)) c.toArgument t
  rw [argument_eq, argumentOf_of_isAlpha hd]
  exact word_of_callOf hcall

theorem reads_numberArgument {n : Number} (h : Derives .expression levels s n t)
    (hread : Category.Reads .expression levels s n t) :
    Category.Reads (.element .argument) levels s (Argument.literal (.number n)) t := by
  intro ht
  obtain ⟨d, r, rfl, hd⟩ := h.exists_head
  show Reaches (argument levels (d :: r)) _ t
  rw [argument_eq, argumentOf_of_number hd]
  exact (hread.expression_reaches ht).bind fun _ _ hrest => Reaches.pure hrest

theorem reads_string {text : List Char} (h : QuotedText text s t) :
    Category.Reads (.element .argument) levels ('"' :: s) (Argument.literal (.string (String.ofList text))) t := by
  intro _
  have hdecode := quotedText_iff.1 h
  show Reaches (argument levels ('"' :: s)) _ t
  rw [argument_eq, argumentOf]
  split
  · next heq =>
    rw [hdecode] at heq
    cases heq
  · next found heq =>
    rw [hdecode] at heq
    cases heq
    exact Reaches.pure rfl

theorem reads_boolean (b : Bool) :
    Category.Reads (.element .argument) levels (booleanChars b ++ t) (Argument.literal (.boolean b)) t := by
  intro ht
  have hends : EndsName t := ht.head (fun _ => isNamePart_eq_false_of_isBlank) (List.all_iff_forall_prop.1 rfl)
  refine (gives_boolean b levels hends ?_).reaches
  intro hopen
  exact absurd (ht '(' hopen) (by decide)

end Arguments

/-! ## Items, passes and schedules -/

section Schedules

variable {levels : Nat} {r s t u v w : List Char}

theorem Follows.endsDigits {closers : List Char} (h : Follows closers t)
    (hclosers : ∀ c ∈ closers, c.isDigit = false) : Numeral.EndsDigits t :=
  h.head (fun _ => isDigit_eq_false_of_isBlank) hclosers

theorem reads_innerSchedule {a : Schedule} (h : Derives .schedule levels s a t)
    (hread : Category.Reads .schedule levels s a t) : Category.Reads (.element .item) levels s a.toItem t := by
  intro ht
  have hcolon : (skipBlanks t).head? ≠ some ':' := by
    intro hcolon
    exact absurd (ht ':' hcolon) (by decide)
  have hschedule := hread (ht.endsDigits (List.all_iff_forall_prop.1 rfl)) hcolon
  obtain ⟨d, r, rfl, hd⟩ := h.exists_head
  cases hd
  exact hschedule.bind fun _ _ hrest => Reaches.pure hrest

theorem reads_interval {n : Number} (h : NumberText false n s t) :
    Category.Reads (.element .item) levels s (Item.interval n) t := by
  intro ht
  have hnumber := h.reads (ht.mono (by decide) : Follows numberClosers t).ends
  obtain ⟨d, r, rfl, hd⟩ := h.exists_head
  rcases hd with hd | rfl | ⟨hsigned, _⟩
  · show Reaches (itemOf _ _ (d :: r)) _ t
    rw [itemOf_of_isDigit hd]
    exact hnumber.then fun _ => Reaches.pure rfl
  · exact hnumber.then fun _ => Reaches.pure rfl
  · exact absurd hsigned Bool.false_ne_true

theorem reads_plusInterval {n : Number} (h : NumberText false n s t) :
    Category.Reads (.element .item) levels ('+' :: s) (Item.interval n) t := by
  intro ht
  have hnumber := h.reads (ht.mono (by decide) : Follows numberClosers t).ends
  exact hnumber.then fun _ => Reaches.pure rfl

theorem reads_calledInterval {c : Call} (h : Derives .call levels s c t) (hread : Category.Reads .call levels s c t) :
    Category.Reads (.element .item) levels s (Item.call c) t := by
  intro _
  have hcall := hread .item
  obtain ⟨d, r, rfl, hd⟩ := h.exists_head
  show Reaches (itemOf _ _ (d :: r)) _ t
  rw [itemOf_of_isAlpha hd]
  exact hcall.bind fun _ _ hrest => Reaches.pure hrest

theorem reads_calledPasses {c : Call} (h : Derives .call levels s c t) (hread : Category.Reads .call levels s c t) :
    Category.Reads .passes levels s (Repeat.call c) t := by
  intro _
  have hcall := hread .passes
  obtain ⟨d, r, rfl, hd⟩ := h.exists_head
  have halpha : d.isAlpha = true := hd
  rw [passesOf]
  · rw [isDigit_eq_false_of_isAlpha halpha, if_neg Bool.false_ne_true]
    exact hcall.bind fun _ _ hrest => Reaches.pure hrest
  · rintro rfl
    exact absurd halpha (by decide)

theorem reads_once {items : List Item} (hread : Category.Reads (.row .item ']') levels r items t) :
    Category.Reads .schedule (levels + 1) ('[' :: r) (Schedule.ofItems items (.times 1)) t := by
  intro _ hcolon
  refine (gives_mark '[' .schedule r).then fun _ => ?_
  refine (hread (by decide) (by decide) .scheduleEnd).bind fun rest _ hrest => ?_
  dsimp only
  split
  · next heq =>
    rw [← hrest, heq] at hcolon
    exact absurd rfl hcolon
  · exact Reaches.pure ((blanks_skipBlanks rest).skipBlanks_eq.symm.trans hrest)

theorem reads_repeated {items : List Item} {passes : Repeat} (hread : Category.Reads (.row .item ']') levels r items t)
    (hcolon : Blanks t (':' :: u)) (hv : Blanks u v) (h : Derives .passes levels v passes w)
    (hpasses : Category.Reads .passes levels v passes w) :
    Category.Reads .schedule (levels + 1) ('[' :: r) (Schedule.ofItems items passes) w := by
  intro hw _
  have hsecond := hpasses hw
  rw [← h.skipBlanks_eq trivial hv] at hsecond
  refine (gives_mark '[' .schedule r).then fun _ => ?_
  refine (hread (by decide) (by decide) .scheduleEnd).bind fun rest _ hrest => ?_
  rw [hcolon.skipBlanks_cons (by decide)] at hrest
  dsimp only
  split
  · next r' heq =>
    rw [hrest] at heq
    cases heq
    exact hsecond.bind fun _ _ hrest' => Reaches.pure hrest'
  · next hother =>
    exact absurd hrest (hother u)

end Schedules

/-- What derives is read. -/
theorem Derives.reads {c : Category} {levels : Nat} {s t : List Char} {value : c.Value}
    (h : Derives c levels s value t) : c.Reads levels s value t := by
  induction h with
  | number h => exact reads_number h
  | parentheses hr h hclose hread => exact reads_parentheses hr h hread hclose
  | factor _ hread => exact reads_term_of_factor hread
  | multiplied _ hc hop hv h hresult hfirst hread => exact reads_multiplied hfirst hc hop hv h hread hresult
  | term _ hread => exact reads_expression_of_term hread
  | added _ hc hop hv h hresult hfirst hread => exact reads_added hfirst hc hop hv h hread hresult
  | call hname hopen _ hread => exact reads_calling hname hopen hread
  | last hs h hclose hread => exact reads_last hs h hread hclose
  | more hs h hcomma _ hread hothers => exact reads_more hs h hread hcomma hothers
  | noElement hclose => exact reads_noElement hclose
  | someElements _ hread => exact reads_someElements hread
  | list _ hread => exact reads_list hread
  | map _ hread => exact reads_map hread
  | entry _ hcolon hv h hkey hvalue => exact reads_entry hkey hcolon hv h hvalue
  | calledArgument h hread => exact reads_calledArgument h hread
  | numberArgument h hread => exact reads_numberArgument h hread
  | string h => exact reads_string h
  | @boolean levels b t => exact reads_boolean b
  | innerSchedule h hread => exact reads_innerSchedule h hread
  | interval h => exact reads_interval h
  | plusInterval h => exact reads_plusInterval h
  | calledInterval h hread => exact reads_calledInterval h hread
  | times hne hdigits hcount => exact fun ht => (gives_digits hne hdigits hcount _ ht).reaches
  | forever => exact fun _ => Reaches.pure rfl
  | calledPasses h hread => exact reads_calledPasses h hread
  | once _ hread => exact reads_once hread
  | repeated _ hcolon hv h hread hpasses => exact reads_repeated hread hcolon hv h hpasses

/-! ## Statements and whole texts -/

theorem follows_nil {closers u : List Char} (h : Blanks u []) : Follows closers u := by
  rw [Follows, blanks_nil_iff.1 h]
  rintro _ ⟨⟩

theorem StatementText.exists_head {s t : List Char} {a : Statement} (h : StatementText s a t) :
    ∃ d r, s = d :: r ∧ d.isAlpha = true := by
  cases h with
  | intro haction => exact haction.exists_head

theorem StatementText.skipBlanks_eq {r s t : List Char} {a : Statement} (h : StatementText s a t)
    (hblanks : Blanks r s) : skipBlanks r = s := by
  obtain ⟨d, r', rfl, hd⟩ := h.exists_head
  exact (begins_of_isAlpha hd r').skipBlanks_eq hblanks

theorem StatementText.reads {s t : List Char} {a : Statement} (h : StatementText s a t) (hends : Numeral.EndsDigits t)
    (hcolon : (skipBlanks t).head? ≠ some ':') : Reaches (statement s) a t := by
  cases h with
  | @intro action schedule _ t' u v _ haction hsign hv hschedule =>
    have htiming : Reaches (Cadence.schedule maxNesting v) schedule t := hschedule.reads hends hcolon
    rw [← hschedule.skipBlanks_eq trivial hv] at htiming
    refine (haction.reads .action).bind fun rest _ hrest => ?_
    rw [hsign.skipBlanks_cons (by decide)] at hrest
    have hmark := gives_mark '@' .atSign u
    rw [← hrest] at hmark
    exact hmark.then fun _ => htiming.bind fun _ _ hrest' => Reaches.pure hrest'

/-- A statement is read in front of a letter, which goes on with no number and is no colon. -/
theorem StatementText.reads_of_isAlpha {s t r : List Char} {a : Statement} {d : Char} (h : StatementText s a t)
    (hd : skipBlanks t = d :: r) (halpha : d.isAlpha = true) : Reaches (statement s) a t := by
  have hfollows : Follows [d] t := by
    rw [Follows, hd]
    rintro _ ⟨⟩
    exact List.mem_singleton_self d
  have hcolon : (skipBlanks t).head? ≠ some ':' := by
    rw [hd]
    rintro ⟨⟩
    exact absurd halpha (by decide)
  exact h.reads (hfollows.endsDigits (List.forall_mem_singleton.2 (isDigit_eq_false_of_isAlpha halpha))) hcolon

theorem ProgramText.exists_head {s : List Char} {l : List Statement} (h : ProgramText s l) :
    ∃ d r, skipBlanks s = d :: r ∧ d.isAlpha = true := by
  cases h with
  | last hs ha _ =>
    rw [ha.skipBlanks_eq hs]
    exact ha.exists_head
  | more hs ha _ =>
    rw [ha.skipBlanks_eq hs]
    exact ha.exists_head

/-- A program is read, however many blanks stand in front of it. -/
theorem ProgramText.reads {s : List Char} {l : List Statement} (h : ProgramText s l) :
    ∀ s', skipBlanks s' = skipBlanks s → statements s' = .ok l := by
  induction h with
  | @last a s t u hs ha hend =>
    intro s' hs'
    have hfollows : Follows [] u := follows_nil hend
    have hcolon : (skipBlanks u).head? ≠ some ':' := by
      rw [blanks_nil_iff.1 hend]
      simp
    have hread := ha.reads (hfollows.endsDigits (List.forall_mem_nil _)) hcolon
    rw [← ha.skipBlanks_eq hs, ← hs'] at hread
    obtain ⟨rest, hlt, hresult, hrest⟩ := hread
    have hempty : (skipBlanks rest).isEmpty = true := by
      rw [hrest, blanks_nil_iff.1 hend]
      rfl
    rw [statements, hresult]
    exact if_pos hempty
  | @more a others s t u hs ha hothers ih =>
    intro s' hs'
    obtain ⟨d, r, hd, halpha⟩ := hothers.exists_head
    have hread := ha.reads_of_isAlpha hd halpha
    rw [← ha.skipBlanks_eq hs, ← hs'] at hread
    obtain ⟨rest, hlt, hresult, hrest⟩ := hread
    have hmore : ¬(skipBlanks rest).isEmpty = true := by
      rw [hrest, hd]
      exact Bool.false_ne_true
    rw [statements, hresult]
    refine (if_neg hmore).trans ?_
    rw [ih rest hrest]
    rfl

/-- A text of a category is read as a whole, if the production reads what derives. -/
theorem WholeText.reads {c : Category} {s : List Char} {value : c.Value} (h : WholeText c s value)
    {production : Production c.Value} (hc : c.IsSingle)
    (hread : ∀ t u, Derives c maxNesting t value u → Blanks u [] → Reaches (production t) value u) :
    whole production s = .ok value := by
  obtain ⟨t, u, hs, ht, hend⟩ := h
  have hproduction := hread t u ht hend
  rw [← ht.skipBlanks_eq hc hs] at hproduction
  obtain ⟨rest, hlt, hresult, hrest⟩ := hproduction
  have hempty : (skipBlanks rest).isEmpty = true := by
    rw [hrest, blanks_nil_iff.1 hend]
    rfl
  rw [whole, hresult]
  exact if_pos hempty

theorem statements_eq_ok_iff {s : List Char} {l : List Statement} : statements s = .ok l ↔ ProgramText s l :=
  ⟨programText_of_statements, fun h => h.reads s rfl⟩

theorem whole_schedule_eq_ok_iff {s : List Char} {a : Schedule} :
    whole (schedule maxNesting) s = .ok a ↔ WholeText .schedule s a := by
  refine ⟨wholeText_of_whole (schedule_sound maxNesting), fun h => h.reads trivial ?_⟩
  intro t u ht hend
  have hfollows : Follows [] u := follows_nil hend
  refine ht.reads (hfollows.endsDigits (List.forall_mem_nil _)) ?_
  rw [blanks_nil_iff.1 hend]
  simp

theorem whole_argument_eq_ok_iff {s : List Char} {a : Argument} :
    whole (argument maxNesting) s = .ok a ↔ WholeText (.element .argument) s a := by
  refine ⟨wholeText_of_whole (argument_sound maxNesting), fun h => h.reads trivial ?_⟩
  intro t u ht hend
  exact ht.reads (follows_nil hend)

theorem inSource_eq_ok_iff {source : String} {read : List Char → Except Complaint α} {a : α} :
    inSource source read = .ok a ↔ read source.toList = .ok a := by
  rw [inSource]
  cases read source.toList with
  | error e => constructor <;> rintro ⟨⟩
  | ok b =>
    constructor
    · rintro ⟨⟩
      rfl
    · rintro ⟨⟩
      rfl

/-- The texts that are read are those that derive from the grammar as a whole, and what is read is the value of the
derivation. So it is for programs, for schedules and for arguments. -/
theorem parse_iff_derives :
    (∀ (source : String) (l : List Statement), parseProgram source = .ok l ↔ ProgramText source.toList l) ∧
      (∀ (source : String) (a : Schedule), parseSchedule source = .ok a ↔ WholeText .schedule source.toList a) ∧
      ∀ (source : String) (a : Argument),
        parseArgument source = .ok a ↔ WholeText (.element .argument) source.toList a := by
  refine ⟨?_, ?_, ?_⟩
  · intro source l
    exact inSource_eq_ok_iff.trans statements_eq_ok_iff
  · intro source a
    exact inSource_eq_ok_iff.trans whole_schedule_eq_ok_iff
  · intro source a
    exact inSource_eq_ok_iff.trans whole_argument_eq_ok_iff

end Cadence
