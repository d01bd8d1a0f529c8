import Cadence.Json
import Cadence.Proofs.Binary64.Written

/-!
# Atoms of JSON texts

JSON values without elements can be told from the front of a text. Strings are read back character by character
(`Json.unescape_escape`), so that they end where they were written to end (`Json.quoted_inj`), and numbers are read back
as a sign and a numeral, which an integer shares with no binary64 number (`Json.readSigned_integer`,
`Json.readSigned_number`). The first character of a text says which kind of value is written (`Json.Mark`).
-/

namespace Cadence.Json

/-! ## Strings -/

def hexValue (c : Char) : Nat :=
  if c.isDigit then c.toNat - 48 else c.toNat - 87

/-- The character that a backslash and `c` stand for, but for `u`. -/
def letterMeant (c : Char) : Char :=
  if c = 'b' then '\x08'
  else if c = 't' then '\t'
  else if c = 'n' then '\n'
  else if c = 'f' then '\x0c'
  else if c = 'r' then '\r'
  else c

/-- Reads the character that a string goes on with, up to what follows it. -/
def unescape : List Char → Option (Char × List Char)
  | '\\' :: 'u' :: _ :: _ :: high :: low :: r => some (Char.ofNat (16 * hexValue high + hexValue low), r)
  | '\\' :: c :: r => some (letterMeant c, r)
  | c :: r => some (c, r)
  | [] => none

private theorem hexValue_digitChar : ∀ n < 16, hexValue (Nat.digitChar n) = n := by
  decide

private theorem unescape_of_ne {c : Char} (h : c ≠ '\\') (r : List Char) : unescape (c :: r) = some (c, r) := by
  unfold unescape
  split
  · next heq =>
    cases heq
    exact absurd rfl h
  · next heq =>
    cases heq
    exact absurd rfl h
  · next heq =>
    cases heq
    rfl
  · next heq => cases heq

/-- Reading undoes writing, whatever follows. -/
theorem unescape_escape (c : Char) (r : List Char) : unescape (escape c ++ r) = some (c, r) := by
  unfold escape
  by_cases hquote : c = '"'
  · subst hquote
    rfl
  by_cases hbackslash : c = '\\'
  · subst hbackslash
    rfl
  by_cases hb : c = '\x08'
  · subst hb
    rfl
  by_cases ht : c = '\t'
  · subst ht
    rfl
  by_cases hn : c = '\n'
  · subst hn
    rfl
  by_cases hf : c = '\x0c'
  · subst hf
    rfl
  by_cases hr : c = '\r'
  · subst hr
    rfl
  rw [if_neg hquote, if_neg hbackslash, if_neg hb, if_neg ht, if_neg hn, if_neg hf, if_neg hr]
  by_cases hcontrol : c.toNat < 0x20
  · have hhigh := hexValue_digitChar (c.toNat / 16) (by omega)
    have hlow := hexValue_digitChar (c.toNat % 16) (by omega)
    have hsplit : 16 * (c.toNat / 16) + c.toNat % 16 = c.toNat := Nat.div_add_mod _ _
    rw [if_pos hcontrol]
    show some (Char.ofNat (16 * hexValue (Nat.digitChar (c.toNat / 16)) + hexValue (Nat.digitChar (c.toNat % 16))), r) = _
    rw [hhigh, hlow, hsplit, Char.ofNat_toNat]
  · rw [if_neg hcontrol]
    exact unescape_of_ne hbackslash r

theorem escape_inj {c d : Char} {r s : List Char} (h : escape c ++ r = escape d ++ s) : c = d ∧ r = s := by
  have hread := unescape_escape c r
  rw [h, unescape_escape d s] at hread
  cases hread
  exact ⟨rfl, rfl⟩

/-- No character of a string is written so that it begins with the quote that ends the string. -/
theorem escape_ne_quote (c : Char) (r s : List Char) : escape c ++ r ≠ '"' :: s := by
  intro h
  have hread := unescape_escape c r
  have hquote : c = '"' := by
    rw [h, unescape_of_ne (by decide)] at hread
    cases hread
    rfl
  subst hquote
  exact absurd (List.cons.inj h).1 (by decide)

private theorem flatMap_escape_inj {t u r s : List Char}
    (h : t.flatMap escape ++ '"' :: r = u.flatMap escape ++ '"' :: s) : t = u ∧ r = s := by
  induction t generalizing u with
  | nil =>
    cases u with
    | nil => exact ⟨rfl, (List.cons.inj h).2⟩
    | cons d u =>
      rw [List.flatMap_cons, List.append_assoc] at h
      exact absurd h.symm (escape_ne_quote _ _ _)
  | cons c t ih =>
    rw [List.flatMap_cons, List.append_assoc] at h
    cases u with
    | nil => exact absurd h (escape_ne_quote _ _ _)
    | cons d u =>
      rw [List.flatMap_cons, List.append_assoc] at h
      obtain ⟨rfl, hrest⟩ := escape_inj h
      obtain ⟨rfl, hsame⟩ := ih hrest
      exact ⟨rfl, hsame⟩

/-- Between its quotes a string can be told from every other one, whatever follows. -/
theorem quoted_inj {t u r s : List Char} (h : quoted t ++ r = quoted u ++ s) : t = u ∧ r = s := by
  simp only [quoted, List.cons_append, List.append_assoc, List.nil_append, List.cons.injEq, true_and] at h
  exact flatMap_escape_inj h

/-! ## Numbers -/

/-- Reads a sign and a numeral, and what follows them. -/
def readSigned (s : List Char) : Bool × Numeral × List Char :=
  ((Numeral.scanSign s).1, Numeral.scan (Numeral.scanSign s).2)

theorem readSigned_of_head {negative : Bool} {body r : List Char} {n : Numeral}
    (hbody : ∃ c t, body = c :: t ∧ c.isDigit = true) (hscan : Numeral.scan (body ++ r) = (n, r)) :
    readSigned ((if negative then ['-'] else []) ++ body ++ r) = (negative, n, r) := by
  obtain ⟨c, t, rfl, hc⟩ := hbody
  have hsign : Numeral.scanSign ((if negative then ['-'] else []) ++ c :: t ++ r) = (negative, c :: t ++ r) := by
    cases negative with
    | true => rfl
    | false => exact Numeral.scanSign_of_isDigit hc _
  rw [readSigned, hsign, hscan]

/-- An integer is read back as its digits, without point and exponent. -/
theorem readSigned_integer (i : Int) {r : List Char} (hr : Numeral.Ends r) :
    readSigned (decimalChars i ++ r) = (decide (i < 0), ⟨Nat.toDigits 10 i.natAbs, none, none⟩, r) := by
  have hpoint : r.head? ≠ some '.' := fun h => (hr '.' h).2.1 rfl
  have hscan : Numeral.scan (Nat.toDigits 10 i.natAbs ++ r) = (⟨Nat.toDigits 10 i.natAbs, none, none⟩, r) :=
    Numeral.scan_eq (Numeral.scanDigits_append (fun _ => Numeral.isDigit_of_mem_toDigits) hr.endsDigits)
      (Numeral.scanFraction_of_ne hpoint) (Numeral.scanExponent_of_ends hr)
  have hread := @readSigned_of_head (decide (i < 0)) _ _ _ (exists_digit_toDigits _) hscan
  simpa only [decimalChars, decide_eq_true_eq] using hread

/-- A finite number is read back as a numeral that is worth it, with a point or an exponent. -/
theorem readSigned_number (negative : Bool) (m : Magnitude) {r : List Char} (hr : Numeral.Ends r) :
    ∃ n, readSigned ((if negative then ['-'] else []) ++ Layout.json.magnitude m ++ r) = (negative, n, r)
      ∧ n.Worth m ∧ n.isInteger = false := by
  obtain ⟨n, hscan, hworth, hinteger⟩ := Layout.json.scan_magnitude m hr
  exact ⟨n, readSigned_of_head (Layout.json.exists_digit m) hscan, hworth, hinteger rfl⟩

theorem atom_number {negative : Bool} {m : Magnitude} (h : m.isFinite = true) :
    (number (.signed negative m)).atom = (if negative then ['-'] else []) ++ Layout.json.magnitude m := by
  simp only [atom, Binary64.isFinite, Binary64.chars, h, if_true]

theorem exists_of_isFinite {x : Binary64} (h : x.isFinite = true) :
    ∃ negative m, x = .signed negative m ∧ m.isFinite = true := by
  rcases x with _ | ⟨negative, m⟩
  · exact absurd h Bool.false_ne_true
  · exact ⟨negative, m, rfl, h⟩

theorem integer_inj {i j : Int} {r s : List Char} (hr : Numeral.Ends r) (hs : Numeral.Ends s)
    (h : (integer i).atom ++ r = (integer j).atom ++ s) : i = j ∧ r = s := by
  have hread := readSigned_integer i hr
  have hdigits : ∀ n, Nat.ofDigitChars 10 (Nat.toDigits 10 n) 0 = n := fun _ => Nat.ofDigitChars_ten_toDigits
  rw [show decimalChars i ++ r = decimalChars j ++ s from h, readSigned_integer j hs] at hread
  simp only [Prod.mk.injEq, decide_eq_decide, Numeral.mk.injEq, and_true] at hread
  obtain ⟨hsign, hsame, rfl⟩ := hread
  have habs : j.natAbs = i.natAbs := by rw [← hdigits j.natAbs, hsame, hdigits]
  exact ⟨by omega, rfl⟩

theorem number_inj {x y : Binary64} {r s : List Char} (hx : x.isFinite = true) (hy : y.isFinite = true)
    (hr : Numeral.Ends r) (hs : Numeral.Ends s) (h : (number x).atom ++ r = (number y).atom ++ s) :
    x = y ∧ r = s := by
  obtain ⟨negative, m, rfl, hm⟩ := exists_of_isFinite hx
  obtain ⟨negative', m', rfl, hm'⟩ := exists_of_isFinite hy
  obtain ⟨n, hread, hworth, _⟩ := readSigned_number negative m hr
  obtain ⟨n', hread', hworth', _⟩ := readSigned_number negative' m' hs
  rw [atom_number hm, atom_number hm'] at h
  rw [h, hread'] at hread
  cases hread
  exact ⟨(hworth.toBinary64 negative).symm.trans (hworth'.toBinary64 negative), rfl⟩

/-- No integer is written as a binary64 number is. -/
theorem integer_ne_number {i : Int} {x : Binary64} {r s : List Char} (hx : x.isFinite = true)
    (hr : Numeral.Ends r) (hs : Numeral.Ends s) : (integer i).atom ++ r ≠ (number x).atom ++ s := by
  intro h
  obtain ⟨negative, m, rfl, hm⟩ := exists_of_isFinite hx
  obtain ⟨n, hread, _, hinteger⟩ := readSigned_number negative m hs
  rw [← atom_number hm, ← h] at hread
  have hsame := (readSigned_integer i hr).symm.trans hread
  cases hsame
  exact Bool.false_ne_true hinteger.symm

/-! ## Marks -/

/-- What kind of value a text goes on with. -/
inductive Mark
  | null
  | yes
  | no
  | number
  | string
  | array
  | object
deriving DecidableEq

/-- The kind of value that begins with a character, if one does. -/
def markOf (c : Char) : Option Mark :=
  if c = 'n' then some .null
  else if c = 't' then some .yes
  else if c = 'f' then some .no
  else if c = '"' then some .string
  else if c = '[' then some .array
  else if c = '\x7b' then some .object
  else if c = '-' ∨ c.isDigit = true then some .number
  else none

def mark : Json → Mark
  | .null => .null
  | .boolean true => .yes
  | .boolean false => .no
  | .integer _ => .number
  | .number _ => .number
  | .string _ => .string
  | .array _ => .array
  | .object _ => .object

/-- A text goes on with a value of some kind. -/
def Shows (text : List Char) (kind : Mark) : Prop :=
  ∃ c r, text = c :: r ∧ markOf c = some kind

theorem Shows.append {text : List Char} {kind : Mark} (h : Shows text kind) (r : List Char) :
    Shows (text ++ r) kind := by
  obtain ⟨c, t, rfl, hc⟩ := h
  exact ⟨c, t ++ r, rfl, hc⟩

/-- Equal texts show values of one kind. -/
theorem Shows.unique {text : List Char} {kind kind' : Mark} (h : Shows text kind) (h' : Shows text kind') :
    kind = kind' := by
  obtain ⟨c, t, rfl, hc⟩ := h
  obtain ⟨c', t', heq, hc'⟩ := h'
  cases heq
  exact Option.some.inj (hc.symm.trans hc')

private theorem markOf_of_isDigit {c : Char} (h : c.isDigit = true) : markOf c = some .number := by
  have hne : ∀ d : Char, d.isDigit = false → c ≠ d := by
    rintro d hd rfl
    rw [h] at hd
    cases hd
  rw [markOf, if_neg (hne _ rfl), if_neg (hne _ rfl), if_neg (hne _ rfl), if_neg (hne _ rfl), if_neg (hne _ rfl),
    if_neg (hne _ rfl), if_pos (.inr h)]

private theorem shows_signed {negative : Bool} {body : List Char} (h : ∃ c t, body = c :: t ∧ c.isDigit = true) :
    Shows ((if negative then ['-'] else []) ++ body) .number := by
  obtain ⟨c, t, rfl, hc⟩ := h
  cases negative with
  | true => exact ⟨'-', c :: t, rfl, rfl⟩
  | false => exact ⟨c, t, rfl, markOf_of_isDigit hc⟩

theorem shows_integer (i : Int) : Shows (integer i).atom .number := by
  have hshows := @shows_signed (decide (i < 0)) _ (exists_digit_toDigits i.natAbs)
  simpa only [atom, decimalChars, decide_eq_true_eq] using hshows

theorem shows_number {x : Binary64} (h : x.isFinite = true) : Shows (number x).atom .number := by
  obtain ⟨negative, m, rfl, hm⟩ := exists_of_isFinite h
  rw [atom_number hm]
  exact shows_signed (Layout.json.exists_digit m)

/-! ## Values with finite numbers -/

mutual

/-- No number in a value is an infinity or "not a number". -/
def IsFinite : Json → Prop
  | null => True
  | boolean _ => True
  | integer _ => True
  | number x => x.isFinite = true
  | string _ => True
  | array items => EachFinite items
  | object fields => FieldsFinite fields
termination_by structural j => j

def EachFinite : List Json → Prop
  | [] => True
  | j :: rest => j.IsFinite ∧ EachFinite rest
termination_by structural j => j

def FieldsFinite : List (String × Json) → Prop
  | [] => True
  | (_, j) :: rest => j.IsFinite ∧ FieldsFinite rest
termination_by structural j => j

end

theorem eachFinite_iff {items : List Json} : EachFinite items ↔ ∀ j ∈ items, j.IsFinite := by
  induction items with
  | nil => simp [EachFinite]
  | cons j rest ih => simp [EachFinite, ih]

theorem fieldsFinite_iff {fields : List (String × Json)} : FieldsFinite fields ↔ ∀ f ∈ fields, f.2.IsFinite := by
  induction fields with
  | nil => simp [FieldsFinite]
  | cons f rest ih => simp [FieldsFinite, ih]

/-- Whether a value is written as an atom. -/
def isAtom : Json → Bool
  | array _ => false
  | object _ => false
  | _ => true

theorem shows_atom {j : Json} (h : j.IsFinite) (hatom : j.isAtom = true) : Shows j.atom j.mark := by
  cases j with
  | null => exact ⟨_, _, rfl, rfl⟩
  | boolean b => cases b <;> exact ⟨_, _, rfl, rfl⟩
  | integer i => exact shows_integer i
  | number x => exact shows_number h
  | string s => exact ⟨_, _, rfl, rfl⟩
  | array items => cases hatom
  | object fields => cases hatom

/-- Atoms can be told from the front of a text. -/
theorem atom_inj {j k : Json} (hj : j.IsFinite) (hk : k.IsFinite) (hatom : j.isAtom = true) (hatom' : k.isAtom = true)
    {r s : List Char} (hr : Numeral.Ends r) (hs : Numeral.Ends s) (h : j.atom ++ r = k.atom ++ s) :
    j = k ∧ r = s := by
  have hmark : j.mark = k.mark := by
    have hshows := (shows_atom hj hatom).append r
    rw [h] at hshows
    exact hshows.unique ((shows_atom hk hatom').append s)
  -- only integers and binary64 numbers share a mark
  cases j with
  | null =>
    cases k with
    | null => exact ⟨rfl, List.append_cancel_left h⟩
    | boolean b => cases b <;> cases hmark
    | _ => cases hmark
  | boolean b =>
    cases k with
    | boolean c =>
      cases b <;> cases c
      · exact ⟨rfl, List.append_cancel_left h⟩
      · cases hmark
      · cases hmark
      · exact ⟨rfl, List.append_cancel_left h⟩
    | _ => cases b <;> cases hmark
  | integer i =>
    cases k with
    | integer i' =>
      obtain ⟨rfl, hsame⟩ := integer_inj hr hs h
      exact ⟨rfl, hsame⟩
    | number x => exact absurd h (integer_ne_number hk hr hs)
    | boolean b => cases b <;> cases hmark
    | _ => cases hmark
  | number x =>
    cases k with
    | integer i => exact absurd h.symm (integer_ne_number hj hs hr)
    | number y =>
      obtain ⟨rfl, hsame⟩ := number_inj hj hk hr hs h
      exact ⟨rfl, hsame⟩
    | boolean b => cases b <;> cases hmark
    | _ => cases hmark
  | string t =>
    cases k with
    | string u =>
      obtain ⟨hchars, hsame⟩ := quoted_inj h
      exact ⟨congrArg string (String.toList_injective hchars), hsame⟩
    | boolean b => cases b <;> cases hmark
    | _ => cases hmark
  | array items => cases hatom
  | object fields => cases hatom

end Cadence.Json
