import Cadence.Proofs.Program.Arguments

/-!
# Tokens

What the tokens of programs look like: numbers, names, and strings between quotes, and the blanks that may stand between
two tokens. Each of them is described by itself, as the text that it takes from the front of another one. The key facts
say that the scanners find exactly these tokens: what they take from a text is one (`NumberText.of_numberLiteral`), and
where what follows a token does not go on with it, they take all of it (`NumberText.reads`).
-/

namespace Cadence

/-! ## Blanks -/

/-- The first text is the second one with blanks in front. -/
def Blanks (s t : List Char) : Prop :=
  ∃ blanks, (∀ c ∈ blanks, isBlank c = true) ∧ s = blanks ++ t

theorem blanks_skipBlanks (s : List Char) : Blanks s (skipBlanks s) := by
  refine ⟨s.takeWhile isBlank, ?_, (List.takeWhile_append_dropWhile).symm⟩
  intro c hc
  exact List.all_eq_true.1 List.all_takeWhile c hc

theorem Blanks.trans {s t u : List Char} (h : Blanks s t) (h' : Blanks t u) : Blanks s u := by
  obtain ⟨blanks, hblanks, rfl⟩ := h
  obtain ⟨more, hmore, rfl⟩ := h'
  refine ⟨blanks ++ more, ?_, (List.append_assoc _ _ _).symm⟩
  intro c hc
  exact (List.mem_append.1 hc).elim (hblanks c) (hmore c)

theorem Blanks.refl (s : List Char) : Blanks s s :=
  ⟨[], fun _ hc => absurd hc List.not_mem_nil, rfl⟩

theorem Blanks.skipBlanks_eq {s t : List Char} (h : Blanks s t) : skipBlanks s = skipBlanks t := by
  obtain ⟨blanks, hblanks, rfl⟩ := h
  exact skipBlanks_append hblanks t

theorem Blanks.skipBlanks_cons {s r : List Char} {c : Char} (h : Blanks s (c :: r)) (hc : isBlank c = false) :
    skipBlanks s = c :: r := by
  rw [h.skipBlanks_eq, Cadence.skipBlanks_cons hc]

theorem Blanks.exists_cons {s r : List Char} {c : Char} (h : Blanks s (c :: r)) : ∃ d r', s = d :: r' := by
  obtain ⟨blanks, _, rfl⟩ := h
  exact List.exists_cons_of_ne_nil (List.append_ne_nil_of_right_ne_nil blanks (List.cons_ne_nil c r))

theorem blanks_nil_iff {s : List Char} : Blanks s [] ↔ skipBlanks s = [] := by
  constructor
  · intro h
    rw [h.skipBlanks_eq]
    rfl
  · intro h
    rw [← h]
    exact blanks_skipBlanks s

/-! ## Numbers -/

/-- A sign, if there may be one; it tells whether the number is negative. -/
inductive SignText (signed : Bool) : Bool → List Char → List Char → Prop
  | none {t : List Char} : SignText signed false t t
  | plus {t : List Char} : signed = true → SignText signed false ('+' :: t) t
  | minus {t : List Char} : signed = true → SignText signed true ('-' :: t) t

inductive FractionText : Option (List Char) → List Char → List Char → Prop
  | none {t : List Char} : FractionText none t t
  | point {digits t : List Char} : (∀ c ∈ digits, c.isDigit = true) →
    FractionText (some digits) ('.' :: (digits ++ t)) t

inductive ExponentText : Option Int → List Char → List Char → Prop
  | none {t : List Char} : ExponentText none t t
  | power {e : Char} {negative : Bool} {digits s t : List Char} : e = 'e' ∨ e = 'E' →
    SignText true negative s (digits ++ t) → digits ≠ [] → (∀ c ∈ digits, c.isDigit = true) →
    ExponentText (some (if negative then -(Nat.ofDigitChars 10 digits 0 : Int) else Nat.ofDigitChars 10 digits 0))
      (e :: s) t

/-- Digits, perhaps a point and further digits, and perhaps an exponent, with a digit before or behind the point. -/
structure NumeralText (n : Numeral) (s t : List Char) : Prop where
  hasDigits : n.hasDigits = true
  isDigit : ∀ c ∈ n.whole, c.isDigit = true
  parts : ∃ u v, s = n.whole ++ u ∧ FractionText n.fraction u v ∧ ExponentText n.exponent v t

/-- A numeral with the sign in front that it may have, as the integer of 64 bits or the finite number that it is. -/
def NumberText (signed : Bool) (value : Number) (s t : List Char) : Prop :=
  ∃ negative u n, SignText signed negative s u ∧ NumeralText n u t ∧ n.Denotes negative value

/-! ### What is scanned -/

theorem signText_scanSignIf (signed : Bool) (s : List Char) :
    SignText signed (Numeral.scanSignIf signed s).1 s (Numeral.scanSignIf signed s).2 := by
  cases signed with
  | false => exact .none
  | true =>
    show SignText true (Numeral.scanSign s).1 s (Numeral.scanSign s).2
    unfold Numeral.scanSign
    split
    · exact .minus rfl
    · exact .plus rfl
    · exact .none

theorem isDigit_of_mem_takeWhile {s : List Char} {c : Char} (h : c ∈ s.takeWhile Char.isDigit) : c.isDigit = true :=
  List.all_eq_true.1 List.all_takeWhile c h

theorem fractionText_scanFraction (s : List Char) :
    FractionText (Numeral.scanFraction s).1 s (Numeral.scanFraction s).2 := by
  unfold Numeral.scanFraction
  split
  · next r =>
    have hsplit : r = (Numeral.scanDigits r).1 ++ (Numeral.scanDigits r).2 := List.takeWhile_append_dropWhile.symm
    have h : FractionText (some (Numeral.scanDigits r).1)
        ('.' :: ((Numeral.scanDigits r).1 ++ (Numeral.scanDigits r).2)) (Numeral.scanDigits r).2 :=
      .point fun c => isDigit_of_mem_takeWhile
    rwa [← hsplit] at h
  · exact .none

theorem exponentText_scanExponent (s : List Char) :
    ExponentText (Numeral.scanExponent s).1 s (Numeral.scanExponent s).2 := by
  unfold Numeral.scanExponent
  split
  · exact .none
  · next c r =>
    split
    · next he =>
      have hsign := signText_scanSignIf true r
      have hsplit : (Numeral.scanSign r).2
          = (Numeral.scanDigits (Numeral.scanSign r).2).1 ++ (Numeral.scanDigits (Numeral.scanSign r).2).2 :=
        List.takeWhile_append_dropWhile.symm
      dsimp only
      split
      · exact .none
      · next hdigits =>
        refine .power he ?_ (fun hnil => hdigits (List.isEmpty_iff.2 hnil)) fun c => isDigit_of_mem_takeWhile
        rw [← hsplit]
        exact hsign
    · exact .none

theorem numeralText_scan {s : List Char} (h : (Numeral.scan s).1.hasDigits = true) :
    NumeralText (Numeral.scan s).1 s (Numeral.scan s).2 where
  hasDigits := h
  isDigit := fun _ => isDigit_of_mem_takeWhile
  parts := ⟨_, _, List.takeWhile_append_dropWhile.symm, fractionText_scanFraction _, exponentText_scanExponent _⟩

theorem toInt_of_fitInt64 {i : Int} {k : Int64} (h : fitInt64 i = some k) : i = k.toInt := by
  unfold fitInt64 at h
  split at h
  · next hrange =>
    cases h
    exact (Int64.toInt_ofInt_of_le hrange.1 (Int.lt_of_le_of_lt hrange.2 (by decide))).symm
  · cases h

/-- What is read as a number is one. -/
theorem NumberText.of_numberLiteral {signed : Bool} {s : List Char} {found : Reading Number s.length}
    (h : numberLiteral signed s = .ok found) : NumberText signed found.value s found.rest := by
  unfold numberLiteral at h
  dsimp only at h
  split at h
  · cases h
  · split at h
    · next hdigits =>
      have hsign := signText_scanSignIf signed s
      have hnumeral := numeralText_scan hdigits
      split at h
      · next hint =>
        split at h
        · next i hfit =>
          cases h
          exact ⟨_, _, _, hsign, hnumeral, hint, toInt_of_fitInt64 hfit⟩
        · cases h
      · next hint =>
        split at h
        · next hfinite =>
          cases h
          exact ⟨_, _, _, hsign, hnumeral, Bool.not_eq_true _ ▸ hint, rfl, hfinite⟩
        · cases h
    · cases h

/-! ### What is a number is read -/

/-- A sign is found where none stands behind it. -/
theorem SignText.scanSignIf_eq {signed negative : Bool} {s t : List Char} (h : SignText signed negative s t)
    (ht : ∀ c ∈ t.head?, c ≠ '+' ∧ c ≠ '-') : Numeral.scanSignIf signed s = (negative, t) := by
  cases h with
  | plus hsigned =>
    subst hsigned
    rfl
  | minus hsigned =>
    subst hsigned
    rfl
  | none =>
    cases signed with
    | false => rfl
    | true =>
      show Numeral.scanSign s = (false, s)
      unfold Numeral.scanSign
      split
      · exact absurd rfl (ht _ rfl).2
      · exact absurd rfl (ht _ rfl).1
      · rfl

theorem ExponentText.scanExponent_eq {exponent : Option Int} {s t : List Char} (h : ExponentText exponent s t)
    (ht : Numeral.Ends t) : Numeral.scanExponent s = (exponent, t) := by
  cases h with
  | none => exact Numeral.scanExponent_of_ends ht
  | @power e negative digits s t he hsign hne hdigits =>
    obtain ⟨d, ds, rfl⟩ := List.exists_cons_of_ne_nil hne
    have hhead : ∀ c ∈ (d :: ds ++ t).head?, c ≠ '+' ∧ c ≠ '-' := by
      rintro c ⟨⟩
      have hd := hdigits d List.mem_cons_self
      constructor
      · rintro rfl
        exact absurd hd (by decide)
      · rintro rfl
        exact absurd hd (by decide)
    have hscan : Numeral.scanSign s = (negative, d :: ds ++ t) := hsign.scanSignIf_eq hhead
    simp only [Numeral.scanExponent, if_pos he, hscan, Numeral.scanDigits_append hdigits ht.endsDigits,
      List.isEmpty_cons, Bool.false_eq_true, if_false]

/-- What may follow the digits of a numeral: an exponent, or the end. -/
theorem ExponentText.head {exponent : Option Int} {s t : List Char} (h : ExponentText exponent s t)
    (ht : Numeral.Ends t) : ∀ c ∈ s.head?, c.isDigit = false ∧ c ≠ '.' := by
  cases h with
  | none =>
    intro c hc
    exact ⟨(ht c hc).1, (ht c hc).2.1⟩
  | power he _ _ _ =>
    rintro c ⟨⟩
    rcases he with rfl | rfl <;> decide

theorem FractionText.scanFraction_eq {fraction : Option (List Char)} {s t : List Char}
    (h : FractionText fraction s t) (ht : ∀ c ∈ t.head?, c.isDigit = false ∧ c ≠ '.') :
    Numeral.scanFraction s = (fraction, t) ∧ Numeral.EndsDigits s := by
  cases h with
  | none =>
    refine ⟨Numeral.scanFraction_of_ne ?_, fun c hc => (ht c hc).1⟩
    intro hpoint
    exact (ht '.' hpoint).2 rfl
  | point hdigits =>
    exact ⟨Numeral.scanFraction_point hdigits fun c hc => (ht c hc).1, Numeral.endsDigits_cons (by decide) _⟩

theorem NumeralText.scan_eq {n : Numeral} {s t : List Char} (h : NumeralText n s t) (ht : Numeral.Ends t) :
    Numeral.scan s = (n, t) := by
  obtain ⟨u, v, rfl, hfraction, hexponent⟩ := h.parts
  obtain ⟨hscan, hends⟩ := hfraction.scanFraction_eq (hexponent.head ht)
  exact Numeral.scan_eq (Numeral.scanDigits_append h.isDigit hends) hscan (hexponent.scanExponent_eq ht)

/-- A numeral begins with a digit or a point. -/
theorem NumeralText.exists_head {n : Numeral} {s t : List Char} (h : NumeralText n s t) :
    ∃ c r, s = c :: r ∧ (c.isDigit = true ∨ c = '.') := by
  obtain ⟨u, v, rfl, hfraction, _⟩ := h.parts
  cases hwhole : n.whole with
  | cons c r => exact ⟨c, r ++ u, rfl, .inl (h.isDigit c (hwhole ▸ List.mem_cons_self))⟩
  | nil =>
    cases hn : n.fraction with
    | none =>
      have hdigits := h.hasDigits
      rw [Numeral.hasDigits, hwhole, hn] at hdigits
      exact absurd hdigits Bool.false_ne_true
    | some digits =>
      rw [hn] at hfraction
      cases hfraction with
      | point _ => exact ⟨'.', _, rfl, .inr rfl⟩

/-- A number begins with a digit, a point, or a sign if it may have one. -/
theorem NumberText.exists_head {signed : Bool} {value : Number} {s t : List Char} (h : NumberText signed value s t) :
    ∃ c r, s = c :: r ∧ (c.isDigit = true ∨ c = '.' ∨ signed = true ∧ (c = '+' ∨ c = '-')) := by
  obtain ⟨negative, u, n, hsign, hnumeral, _⟩ := h
  cases hsign with
  | none =>
    obtain ⟨c, r, hs, hc⟩ := hnumeral.exists_head
    exact ⟨c, r, hs, hc.imp_right .inl⟩
  | plus hsigned => exact ⟨'+', u, rfl, .inr (.inr ⟨hsigned, .inl rfl⟩)⟩
  | minus hsigned => exact ⟨'-', u, rfl, .inr (.inr ⟨hsigned, .inr rfl⟩)⟩

/-- A number is read, if what follows does not go on with it. -/
theorem NumberText.reads {signed : Bool} {value : Number} {s t : List Char} (h : NumberText signed value s t)
    (ht : Numeral.Ends t) : Gives True value t (numberLiteral signed s) := by
  obtain ⟨negative, u, n, hsign, hnumeral, hvalue⟩ := h
  have hhead : ∀ c ∈ u.head?, c ≠ '+' ∧ c ≠ '-' := by
    obtain ⟨c, r, rfl, hc⟩ := hnumeral.exists_head
    rintro _ ⟨⟩
    constructor
    · rintro rfl
      rcases hc with hc | hc <;> exact absurd hc (by decide)
    · rintro rfl
      rcases hc with hc | hc <;> exact absurd hc (by decide)
  exact gives_numeral (hsign.scanSignIf_eq hhead) (hnumeral.scan_eq ht) hnumeral.hasDigits hvalue

/-! ## Names -/

/-- What is read as a name is one. -/
theorem isName_of_name {what : Expectation} {s : List Char} {found : Reading (List Char) s.length}
    (h : name what s = .ok found) : isName found.value = true ∧ s = found.value ++ found.rest := by
  cases s with
  | nil => cases h
  | cons c r =>
    simp only [name] at h
    split at h
    · next hc =>
      cases h
      refine ⟨?_, ?_⟩
      · rw [isName, hc, Bool.true_and]
        exact List.all_takeWhile
      · rw [List.cons_append, List.takeWhile_append_dropWhile]
    · cases h

/-! ## Strings -/

/-- What follows an opening quote, up to the closing one. A backslash takes the next character with it. -/
inductive QuotedText : List Char → List Char → List Char → Prop
  | close {t : List Char} : QuotedText [] ('"' :: t) t
  | plain {c : Char} {text s t : List Char} : c ≠ '"' → c ≠ '\\' → QuotedText text s t →
    QuotedText (c :: text) (c :: s) t
  | escaped {c : Char} {text s t : List Char} : QuotedText text s t →
    QuotedText (Quoted.unescape c ++ text) ('\\' :: c :: s) t

theorem quotedText_iff {text s t : List Char} : QuotedText text s t ↔ Quoted.decode s = some (text, t) := by
  constructor
  · intro h
    induction h with
    | close => rfl
    | plain hquote hbackslash _ ih =>
      rw [Quoted.decode, ih]
      · rfl
      · exact hquote
      · rintro rfl
        exact absurd rfl hbackslash
      · rintro c r rfl
        exact absurd rfl hbackslash
    | escaped _ ih =>
      rw [Quoted.decode, ih]
      rfl
  · intro h
    fun_induction Quoted.decode s generalizing text t with
    | case1 => cases h
    | case2 r =>
      cases h
      exact .close
    | case3 => cases h
    | case4 c r ih =>
      obtain ⟨found, hfound, heq⟩ := Option.map_eq_some_iff.1 h
      cases heq
      exact .escaped (ih hfound)
    | case5 c r hquote hend hbackslash ih =>
      obtain ⟨found, hfound, heq⟩ := Option.map_eq_some_iff.1 h
      cases heq
      refine .plain (fun hc => hquote hc) ?_ (ih hfound)
      rintro rfl
      cases r with
      | nil => exact hend rfl rfl
      | cons c r => exact hbackslash c r rfl rfl

end Cadence
