import Cadence.Program.Parser
import Cadence.Program.Printer
import Cadence.Proofs.Binary64.Texts

/-!
# What productions give

A production that comes to a written part of a program reads it, if the part fits into the levels that are left, and
complains about too many levels otherwise; `Gives` says both. The key fact is that it goes through a production in two
parts (`Gives.bind`). With it, the ways to repeat a production are read back: rows set apart by commas
(`gives_delimited`) and chains without operators (`gives_chain`).
-/

namespace Cadence

variable {α β γ : Type}

/-! ## What a result gives -/

/-- A result is the given value, with `rest` behind it, if the text fits, and the complaint that it is nested too
deeply otherwise. -/
structure Gives (fits : Prop) (value : α) (rest : List Char) {bound : Nat}
    (result : Except Complaint (Reading α bound)) : Prop where
  ok : fits → ∃ h, result = .ok ⟨value, rest, h⟩
  tooDeep : ¬fits → ∃ r, result = .error ⟨.tooDeep, r⟩

namespace Gives

theorem pure (value : α) {rest : List Char} {bound : Nat} (h : rest.length < bound) :
    Gives True value rest (.ok ⟨value, rest, h⟩ : Except Complaint (Reading α bound)) :=
  ⟨fun _ => ⟨h, rfl⟩, fun h => absurd trivial h⟩

theorem of_iff {fits fits' : Prop} {value : α} {rest : List Char} {bound : Nat}
    {result : Except Complaint (Reading α bound)} (h : Gives fits value rest result) (hiff : fits ↔ fits') :
    Gives fits' value rest result :=
  ⟨fun hfits => h.ok (hiff.2 hfits), fun hfits => h.tooDeep fun hfits' => hfits (hiff.1 hfits')⟩

/-- A result in two parts gives what its second part gives, and fits if both parts do. -/
theorem bind {fits fits' : Prop} {value : α} {value' : β} {rest rest' : List Char} {bound bound' : Nat}
    {result : Except Complaint (Reading α bound)} {f : Reading α bound → Except Complaint (Reading β bound')}
    (h : Gives fits value rest result) (hf : ∀ hlt, Gives fits' value' rest' (f ⟨value, rest, hlt⟩)) :
    Gives (fits ∧ fits') value' rest' (result >>= f) := by
  by_cases hfits : fits
  · obtain ⟨hlt, hresult⟩ := h.ok hfits
    rw [hresult]
    show Gives (fits ∧ fits') value' rest' (f ⟨value, rest, hlt⟩)
    exact (hf hlt).of_iff (and_iff_right hfits).symm
  · obtain ⟨r, hresult⟩ := h.tooDeep hfits
    rw [hresult]
    exact ⟨fun h => absurd h.1 hfits, fun _ => ⟨r, rfl⟩⟩

/-- A result in two parts fits if its first part does, where the second part always reads something. -/
theorem map {fits : Prop} {value : α} {value' : β} {rest rest' : List Char} {bound bound' : Nat}
    {result : Except Complaint (Reading α bound)} {f : Reading α bound → Except Complaint (Reading β bound')}
    (h : Gives fits value rest result) (hf : ∀ hlt, Gives True value' rest' (f ⟨value, rest, hlt⟩)) :
    Gives fits value' rest' (result >>= f) :=
  (h.bind hf).of_iff (and_iff_left trivial)

/-- What comes after a part that is always read gives what it gives by itself. -/
theorem after {fits : Prop} {value : α} {value' : β} {rest rest' : List Char} {bound bound' : Nat}
    {result : Except Complaint (Reading α bound)} {f : Reading α bound → Except Complaint (Reading β bound')}
    (h : Gives True value rest result) (hf : ∀ hlt, Gives fits value' rest' (f ⟨value, rest, hlt⟩)) :
    Gives fits value' rest' (result >>= f) :=
  (h.bind hf).of_iff (and_iff_right trivial)

end Gives

/-! ## Where parts begin and end -/

/-- A text begins with a character that is neither blank nor closes anything. -/
def Begins (s : List Char) : Prop :=
  ∃ c r, s = c :: r ∧ isBlank c = false ∧ c ∉ [')', ']', '\x7d']

/-- What may follow a part within a program: nothing, or a comma, a colon or a closing bracket. -/
def Closes (rest : List Char) : Prop :=
  ∀ c ∈ rest.head?, c ∈ [',', ':', ')', ']', '\x7d']

theorem closes_nil : Closes [] := by
  rintro _ ⟨⟩

theorem closes_cons {c : Char} (h : c ∈ [',', ':', ')', ']', '\x7d']) (r : List Char) : Closes (c :: r) := by
  rintro _ ⟨⟩
  exact h

theorem Closes.imp {rest : List Char} (h : Closes rest) {P : Char → Prop} [DecidablePred P]
    (hP : [',', ':', ')', ']', '\x7d'].all fun c => P c) : ∀ c ∈ rest.head?, P c :=
  fun c hc => of_decide_eq_true (List.all_eq_true.1 hP c (h c hc))

theorem skipBlanks_append {blanks : List Char} (h : ∀ c ∈ blanks, isBlank c = true) (s : List Char) :
    skipBlanks (blanks ++ s) = skipBlanks s := by
  rw [skipBlanks, List.dropWhile_append_of_pos h]
  rfl

theorem Begins.skipBlanks {s : List Char} (h : Begins s) (rest : List Char) :
    skipBlanks (s ++ rest) = s ++ rest := by
  obtain ⟨c, r, rfl, hblank, _⟩ := h
  exact skipBlanks_cons hblank _

theorem Begins.append {s : List Char} (h : Begins s) (t : List Char) : Begins (s ++ t) := by
  obtain ⟨c, r, rfl, hc⟩ := h
  exact ⟨c, r ++ t, rfl, hc⟩

theorem begins_commaSeparated {s : List Char} (h : Begins s) (others : List (List Char)) :
    Begins (commaSeparated (s :: others)) := by
  cases others with
  | nil => exact h
  | cons t others => exact h.append _

theorem Closes.skipBlanks {rest : List Char} (h : Closes rest) : skipBlanks rest = rest := by
  have hblank : ∀ c ∈ rest.head?, isBlank c = false := h.imp (by decide)
  cases rest with
  | nil => rfl
  | cons c r => exact skipBlanks_cons (hblank c rfl) r

/-! ## Marks and names -/

theorem gives_mark (c : Char) (what : Expectation) (r : List Char) : Gives True () r (mark c what (c :: r)) := by
  have h : mark c what (c :: r) = .ok ⟨(), r, Nat.lt_succ_self _⟩ := if_pos rfl
  rw [h]
  exact Gives.pure () _

/-- What follows does not go on with a name. -/
def EndsName (rest : List Char) : Prop :=
  ∀ c ∈ rest.head?, isNamePart c = false

/-- Whether a text is a name: a letter, then letters, digits and low lines. -/
def isName : List Char → Bool
  | [] => false
  | c :: r => c.isAlpha && r.all isNamePart

theorem gives_name {s : List Char} (h : isName s = true) (what : Expectation) {rest : List Char}
    (hr : EndsName rest) : Gives True s rest (name what (s ++ rest)) := by
  cases s with
  | nil => exact absurd h (by decide)
  | cons c r =>
    obtain ⟨hc, hall⟩ := Bool.and_eq_true_iff.1 h
    have hall := List.all_eq_true.1 hall
    have htake : (r ++ rest).takeWhile isNamePart = r := takeWhile_append_of_head hall hr
    have hdrop : (r ++ rest).dropWhile isNamePart = rest := dropWhile_append_of_head hall hr
    rw [List.cons_append]
    simp only [name, hc, if_true]
    refine ⟨fun _ => ?_, fun h => absurd trivial h⟩
    have hlt := length_dropWhile_lt isNamePart c (r ++ rest)
    simp only [htake, hdrop] at hlt ⊢
    exact ⟨hlt, trivial⟩

/-! ## Rows -/

section Rows

variable {element : Production α} {close : Char} {what : Expectation} {chars : α → List Char} {fits : α → Prop}

private theorem closes_of_mem {c : Char} (h : c ∈ [')', ']', '\x7d']) (r : List Char) : Closes (c :: r) :=
  closes_cons (List.mem_cons_of_mem _ (List.mem_cons_of_mem _ h)) r

/-- What stands behind an opening bracket, if that is not its closing bracket: a row of elements is read back. -/
theorem gives_elements (hclose : close ∈ [')', ']', '\x7d']) {l : List α} (hne : l ≠ [])
    (hbegins : ∀ a ∈ l, Begins (chars a))
    (h : ∀ a ∈ l, ∀ rest, Closes rest → Gives (fits a) a rest (element (chars a ++ rest))) (rest : List Char)
    {s : List Char} (hs : skipBlanks s = commaSeparated (l.map chars) ++ close :: rest) :
    Gives (∀ a ∈ l, fits a) l rest (elements element close what s) := by
  induction l generalizing s with
  | nil => exact absurd rfl hne
  | cons a others ih =>
    rw [elements]
    cases others with
    | nil =>
      -- what follows the last element is the closing bracket, which is no comma
      have hcloses := closes_of_mem hclose rest
      have hfirst : Gives (fits a) a (close :: rest) (element (skipBlanks s)) := by
        rw [hs]
        exact h a List.mem_cons_self _ hcloses
      refine (hfirst.map fun hlt => ?_).of_iff List.forall_mem_singleton.symm
      dsimp only
      split
      · next heq =>
        rw [hcloses.skipBlanks] at heq
        cases heq
      · next c r heq =>
        rw [hcloses.skipBlanks] at heq
        cases heq
        have hcomma : close ≠ ',' := by
          rintro rfl
          exact absurd hclose (by decide)
        rw [if_neg hcomma, if_pos rfl]
        exact Gives.pure [a] _
    | cons b others =>
      -- behind the comma stands a blank, and then the row of the other elements
      have hcloses : Closes (',' :: ' ' :: (commaSeparated ((b :: others).map chars) ++ close :: rest)) :=
        closes_cons (by decide) _
      have hsplit : commaSeparated ((a :: b :: others).map chars) ++ close :: rest
          = chars a ++ ',' :: ' ' :: (commaSeparated ((b :: others).map chars) ++ close :: rest) :=
        List.append_assoc _ _ _
      have hfirst : Gives (fits a) a (',' :: ' ' :: (commaSeparated ((b :: others).map chars) ++ close :: rest))
          (element (skipBlanks s)) := by
        rw [hs, hsplit]
        exact h a List.mem_cons_self _ hcloses
      refine (hfirst.bind fun hlt => ?_).of_iff List.forall_mem_cons.symm
      dsimp only
      split
      · next heq =>
        rw [hcloses.skipBlanks] at heq
        cases heq
      · next c r heq =>
        rw [hcloses.skipBlanks] at heq
        cases heq
        rw [if_pos rfl]
        have hnext : Begins (commaSeparated ((b :: others).map chars)) :=
          begins_commaSeparated (hbegins b (List.mem_cons_of_mem a List.mem_cons_self)) _
        have hskip : skipBlanks (' ' :: (commaSeparated ((b :: others).map chars) ++ close :: rest))
            = commaSeparated ((b :: others).map chars) ++ close :: rest := hnext.skipBlanks _
        exact (ih (List.cons_ne_nil _ _) (fun a' ha' => hbegins a' (List.mem_cons_of_mem _ ha'))
          (fun a' ha' => h a' (List.mem_cons_of_mem _ ha')) hskip).map fun hlt' => Gives.pure _ _

/-- What stands behind an opening bracket: a row of elements, or none, is read back. -/
theorem gives_delimited (hclose : close ∈ [')', ']', '\x7d']) {l : List α} (hbegins : ∀ a ∈ l, Begins (chars a))
    (h : ∀ a ∈ l, ∀ rest, Closes rest → Gives (fits a) a rest (element (chars a ++ rest))) (rest : List Char) :
    Gives (∀ a ∈ l, fits a) l rest (delimited element close what (commaSeparated (l.map chars) ++ close :: rest)) := by
  unfold delimited
  cases l with
  | nil =>
    have hskip : skipBlanks (commaSeparated ([].map chars) ++ close :: rest) = close :: rest :=
      (closes_of_mem hclose rest).skipBlanks
    split
    · next c r heq =>
      rw [hskip] at heq
      cases heq
      rw [if_pos rfl]
      refine (Gives.pure [] _).of_iff ⟨fun _ a ha => ?_, fun _ => trivial⟩
      cases ha
    · next heq =>
      rw [hskip] at heq
      cases heq
  | cons a others =>
    have hfirst : Begins (commaSeparated ((a :: others).map chars)) :=
      begins_commaSeparated (hbegins a List.mem_cons_self) _
    have helements : Gives (∀ b ∈ a :: others, fits b) (a :: others) rest
        (elements element close what (commaSeparated ((a :: others).map chars) ++ close :: rest)) :=
      gives_elements hclose (List.cons_ne_nil a others) hbegins h rest (hfirst.skipBlanks _)
    split
    · next c r heq =>
      have hc : c ≠ close := by
        rintro rfl
        obtain ⟨d, r', hd, _, hopen⟩ := hfirst
        rw [hd, List.cons_append, skipBlanks_cons (by assumption)] at heq
        cases heq
        exact hopen hclose
      rw [if_neg hc]
      exact helements
    · exact helements

end Rows

/-! ## Chains -/

/-- A chain ends where no operator follows. -/
theorem gives_chainFrom {operator? : Char → Option Operator} {operand : Production Number} (value : Number)
    {rest : List Char} (hrest : skipBlanks rest = rest) (h : ∀ c ∈ rest.head?, operator? c = none) :
    Gives True value rest (chainFrom operator? operand value rest) := by
  rw [chainFrom]
  split
  · next heq =>
    rw [hrest] at heq
    subst heq
    exact Gives.pure value _
  · next c r heq =>
    rw [hrest] at heq
    subst heq
    have hnone : operator? c = none := h c rfl
    dsimp only
    split
    · exact Gives.pure value _
    · next op hop =>
      rw [hnone] at hop
      cases hop

theorem gives_chain {operator? : Char → Option Operator} {operand : Production Number} {value : Number}
    {s rest : List Char} (hrest : skipBlanks rest = rest) (h : ∀ c ∈ rest.head?, operator? c = none)
    (hoperand : Gives True value rest (operand s)) : Gives True value rest (chain operator? operand s) :=
  hoperand.map fun _ => (gives_chainFrom value hrest h).map fun _ => Gives.pure value _

end Cadence
