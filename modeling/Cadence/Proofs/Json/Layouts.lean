import Cadence.Proofs.Json.Atoms

/-!
# JSON texts tell their values

A JSON value whose numbers are finite can be told from the front of its text, whatever follows that does not go on with
a numeral (`Json.Style.tells`); so different values have different texts, on one line (`Json.text_inj`) as well as
with one element a line (`Json.prettyText_inj`). Both ways to write values put the elements of a value between brackets,
with commas between them and blanks around (`Json.enclosed`); that is all that the proof needs to know
(`Json.Style`). The step is `Json.enclosed_inj`: rows of elements can be told if each of the elements can.
-/

namespace Cadence.Json

/-! ## Rows of elements -/

/-- What follows an element: blanks and a closing bracket, or a comma and further elements behind blanks. -/
def followed (inner outer : List Char) (right : Char) : List (List Char) → List Char
  | [] => outer ++ [right]
  | element :: rest => ',' :: (inner ++ element ++ followed inner outer right rest)

/-- Elements behind an opening bracket, up to the closing one. -/
def enclosed (inner outer : List Char) (right : Char) : List (List Char) → List Char
  | [] => [right]
  | element :: rest => inner ++ element ++ followed inner outer right rest

/-- Some blanks, as they stand between the parts of a value. -/
def IsGap (gap : List Char) : Prop :=
  ∀ c ∈ gap, c = ' ' ∨ c = '\n'

/-- A character that ends a value. -/
def IsClosing (c : Char) : Prop :=
  c = ']' ∨ c = '\x7d'

/-- What `write` writes for a valid value `a` is not the front of what it writes for another one, nor is that text
longer. -/
def Tells {α : Type} (write : α → List Char) (Valid : α → Prop) (a : α) : Prop :=
  ∀ b r s, Valid b → Numeral.Ends r → Numeral.Ends s → write a ++ r = write b ++ s → a = b ∧ r = s

section Rows

variable {α : Type} {write : α → List Char} {Valid : α → Prop} {inner outer : List Char} {right : Char}

theorem ends_followed (houter : IsGap outer) (hright : IsClosing right) (elements : List (List Char)) (r : List Char) :
    Numeral.Ends (followed inner outer right elements ++ r) := by
  have hmark : ∀ c, (c = ' ' ∨ c = '\n') ∨ IsClosing c ∨ c = ',' →
      c.isDigit = false ∧ c ≠ '.' ∧ c ≠ 'e' ∧ c ≠ 'E' := by
    rintro c ((rfl | rfl) | (rfl | rfl) | rfl) <;> decide
  intro c hc
  apply hmark
  cases elements with
  | nil =>
    cases outer with
    | nil =>
      cases hc
      exact .inr (.inl hright)
    | cons d outer =>
      cases hc
      exact .inl (houter _ List.mem_cons_self)
  | cons element rest =>
    cases hc
    exact .inr (.inr rfl)

theorem closing_ne_comma {c : Char} (hright : IsClosing c) : c ≠ ',' := by
  rcases hright with rfl | rfl <;> decide

/-- A row that ends differs from one that goes on. -/
theorem end_ne_comma (houter : IsGap outer) (hright : IsClosing right) (r s : List Char) :
    outer ++ [right] ++ r ≠ ',' :: s := by
  cases outer with
  | nil =>
    intro h
    exact closing_ne_comma hright (List.cons.inj h).1
  | cons c outer =>
    intro h
    have hcomma : c = ',' := (List.cons.inj h).1
    rcases houter c List.mem_cons_self with rfl | rfl <;> exact absurd hcomma (by decide)

/-- A row that ends at once differs from one that has an element. -/
theorem end_ne_element (hinner : IsGap inner) (hright : IsClosing right) {text : List Char} {kind : Mark}
    (htext : Shows text kind) (r s : List Char) : right :: r ≠ inner ++ text ++ s := by
  intro h
  cases inner with
  | nil =>
    obtain ⟨c, t, rfl, hc⟩ := htext
    obtain ⟨rfl, _⟩ := List.cons.inj h
    rcases hright with rfl | rfl <;> cases hc
  | cons c inner =>
    obtain ⟨rfl, _⟩ := List.cons.inj h
    rcases hinner _ List.mem_cons_self with rfl | rfl <;> rcases hright with h | h <;> exact absurd h (by decide)

theorem followed_inj (houter : IsGap outer) (hright : IsClosing right) {items : List α}
    (htells : ∀ a ∈ items, Tells write Valid a) {others : List α} (hvalid : ∀ b ∈ others, Valid b) {r s : List Char}
    (h : followed inner outer right (items.map write) ++ r = followed inner outer right (others.map write) ++ s) :
    items = others ∧ r = s := by
  induction items generalizing others with
  | nil =>
    cases others with
    | nil => exact ⟨rfl, List.append_cancel_left h⟩
    | cons b others => exact absurd h (end_ne_comma houter hright _ _)
  | cons a items ih =>
    cases others with
    | nil => exact absurd h.symm (end_ne_comma houter hright _ _)
    | cons b others =>
      -- behind the comma and the blanks stand the elements, and behind those the rests of the rows
      simp only [List.map_cons, followed, List.cons_append, List.append_assoc, List.cons.injEq, true_and,
        List.append_cancel_left_eq] at h
      obtain ⟨rfl, hrest⟩ := htells a List.mem_cons_self b _ _ (hvalid b List.mem_cons_self)
        (ends_followed houter hright _ _) (ends_followed houter hright _ _) h
      obtain ⟨rfl, hsame⟩ := ih (fun c hc => htells c (List.mem_cons_of_mem _ hc))
        (fun c hc => hvalid c (List.mem_cons_of_mem _ hc)) hrest
      exact ⟨rfl, hsame⟩

/-- Rows of elements can be told if each of the elements can. -/
theorem enclosed_inj (hinner : IsGap inner) (houter : IsGap outer) (hright : IsClosing right)
    (hshows : ∀ a, Valid a → ∃ kind, Shows (write a) kind) {items : List α}
    (htells : ∀ a ∈ items, Tells write Valid a) (hvalid : ∀ a ∈ items, Valid a) {others : List α}
    (hvalid' : ∀ b ∈ others, Valid b) {r s : List Char}
    (h : enclosed inner outer right (items.map write) ++ r = enclosed inner outer right (others.map write) ++ s) :
    items = others ∧ r = s := by
  cases items with
  | nil =>
    cases others with
    | nil => exact ⟨rfl, (List.cons.inj h).2⟩
    | cons b others =>
      obtain ⟨kind, hkind⟩ := hshows b (hvalid' b List.mem_cons_self)
      refine absurd h ?_
      rw [List.map_cons, enclosed, List.append_assoc]
      exact end_ne_element hinner hright hkind _ _
  | cons a items =>
    cases others with
    | nil =>
      obtain ⟨kind, hkind⟩ := hshows a (hvalid a List.mem_cons_self)
      refine absurd h.symm ?_
      rw [List.map_cons, enclosed, List.append_assoc]
      exact end_ne_element hinner hright hkind _ _
    | cons b others =>
      simp only [List.map_cons, enclosed, List.append_assoc, List.append_cancel_left_eq] at h
      obtain ⟨rfl, hrest⟩ := htells a List.mem_cons_self b _ _ (hvalid' b List.mem_cons_self)
        (ends_followed houter hright _ _) (ends_followed houter hright _ _) h
      obtain ⟨rfl, hsame⟩ := followed_inj houter hright (fun c hc => htells c (List.mem_cons_of_mem _ hc))
        (fun c hc => hvalid' c (List.mem_cons_of_mem _ hc)) hrest
      exact ⟨rfl, hsame⟩

end Rows

/-! ## Styles -/

/-- A field as it is written, if its value is written by `write`. -/
def fieldText (colon : List Char) (write : Json → List Char) (field : String × Json) : List Char :=
  quoted field.1.toList ++ (colon ++ write field.2)

/-- A way to write values at each depth of nesting. -/
structure Style where
  write : Nat → Json → List Char
  /-- What stands in front of an element at a depth of nesting. -/
  gap : Nat → List Char
  /-- What stands between a name and its value. -/
  colon : List Char
  isGap_gap : ∀ depth, IsGap (gap depth)
  write_atom : ∀ depth j, j.isAtom = true → write depth j = j.atom
  write_array : ∀ depth items, write depth (array items)
    = '[' :: enclosed (gap (depth + 1)) (gap depth) ']' (items.map (write (depth + 1)))
  write_object : ∀ depth fields, write depth (object fields)
    = '\x7b' :: enclosed (gap (depth + 1)) (gap depth) '\x7d' (fields.map (fieldText colon (write (depth + 1))))

namespace Style

variable (style : Style)

theorem shows_write (depth : Nat) {j : Json} (h : j.IsFinite) : Shows (style.write depth j) j.mark := by
  cases hatom : j.isAtom with
  | true => exact style.write_atom depth j hatom ▸ shows_atom h hatom
  | false =>
    cases j with
    | array items => exact style.write_array depth items ▸ ⟨_, _, rfl, rfl⟩
    | object fields => exact style.write_object depth fields ▸ ⟨_, _, rfl, rfl⟩
    | _ => cases hatom

/-- A field can be told if its value can. -/
theorem tells_field {depth : Nat} {f : String × Json} (h : Tells (style.write depth) IsFinite f.2) :
    Tells (fieldText style.colon (style.write depth)) (fun g => g.2.IsFinite) f := by
  intro g r s hg hr hs heq
  simp only [fieldText, List.append_assoc] at heq
  obtain ⟨hname, hrest⟩ := quoted_inj heq
  obtain ⟨hvalue, hsame⟩ := h g.2 r s hg hr hs (List.append_cancel_left hrest)
  exact ⟨Prod.ext (String.toList_injective hname) hvalue, hsame⟩

/-- Equal texts begin with values of one kind. -/
theorem mark_eq {depth : Nat} {j k : Json} {r s : List Char} (hj : j.IsFinite) (hk : k.IsFinite)
    (h : style.write depth j ++ r = style.write depth k ++ s) : j.mark = k.mark := by
  have hshows := (style.shows_write depth hj).append r
  rw [h] at hshows
  exact hshows.unique ((style.shows_write depth hk).append s)

theorem tells_array {items : List Json} {depth : Nat} (hj : (array items).IsFinite)
    (htells : ∀ j ∈ items, Tells (style.write (depth + 1)) IsFinite j) :
    Tells (style.write depth) IsFinite (array items) := by
  intro k r s hk hr hs h
  have hmark := style.mark_eq hj hk h
  cases k with
  | array others =>
    rw [write_array, write_array] at h
    obtain ⟨rfl, hsame⟩ := enclosed_inj (style.isGap_gap _) (style.isGap_gap _) (.inl rfl)
      (fun a ha => ⟨_, style.shows_write _ ha⟩) htells (eachFinite_iff.1 hj) (eachFinite_iff.1 hk) (List.cons.inj h).2
    exact ⟨rfl, hsame⟩
  | boolean b => cases b <;> cases hmark
  | _ => cases hmark

theorem tells_object {fields : List (String × Json)} {depth : Nat} (hj : (object fields).IsFinite)
    (htells : ∀ f ∈ fields, Tells (style.write (depth + 1)) IsFinite f.2) :
    Tells (style.write depth) IsFinite (object fields) := by
  intro k r s hk hr hs h
  have hmark := style.mark_eq hj hk h
  cases k with
  | object others =>
    rw [write_object, write_object] at h
    obtain ⟨rfl, hsame⟩ := enclosed_inj (style.isGap_gap _) (style.isGap_gap _) (.inr rfl)
      (fun _ _ => ⟨.string, _, _, rfl, rfl⟩) (fun f hf => style.tells_field (htells f hf)) (fieldsFinite_iff.1 hj)
      (fieldsFinite_iff.1 hk) (List.cons.inj h).2
    exact ⟨rfl, hsame⟩
  | boolean b => cases b <;> cases hmark
  | _ => cases hmark

theorem tells_atom {j : Json} {depth : Nat} (hj : j.IsFinite) (hatom : j.isAtom = true) :
    Tells (style.write depth) IsFinite j := by
  intro k r s hk hr hs h
  have hmark := style.mark_eq hj hk h
  have hatom' : k.isAtom = true := by
    cases j with
    | array _ | object _ => cases hatom
    | boolean b => cases b <;> cases k <;> first | rfl | cases hmark
    | _ => cases k <;> first | rfl | cases hmark
  rw [style.write_atom depth j hatom, style.write_atom depth k hatom'] at h
  exact atom_inj hj hk hatom hatom' hr hs h

mutual

/-- A value can be told from the front of a text. -/
theorem tells : ∀ (j : Json) (depth : Nat), j.IsFinite → Tells (style.write depth) IsFinite j
  | .null, _, hj => style.tells_atom hj rfl
  | .boolean _, _, hj => style.tells_atom hj rfl
  | .integer _, _, hj => style.tells_atom hj rfl
  | .number _, _, hj => style.tells_atom hj rfl
  | .string _, _, hj => style.tells_atom hj rfl
  | .array items, depth, hj => style.tells_array hj (tells_each items (depth + 1) hj)
  | .object fields, depth, hj => style.tells_object hj (tells_fields fields (depth + 1) hj)

theorem tells_each : ∀ (items : List Json) (depth : Nat), EachFinite items →
    ∀ j ∈ items, Tells (style.write depth) IsFinite j
  | [], _, _, _, hmem => nomatch hmem
  | j :: rest, depth, hj, _, hmem => by
    rcases List.mem_cons.1 hmem with hhead | hmem
    · exact hhead ▸ tells j depth hj.1
    · exact tells_each rest depth hj.2 _ hmem

theorem tells_fields : ∀ (fields : List (String × Json)) (depth : Nat), FieldsFinite fields →
    ∀ f ∈ fields, Tells (style.write depth) IsFinite f.2
  | [], _, _, _, hmem => nomatch hmem
  | (name, j) :: rest, depth, hj, _, hmem => by
    rcases List.mem_cons.1 hmem with hhead | hmem
    · exact hhead ▸ tells j depth hj.1
    · exact tells_fields rest depth hj.2 _ hmem

end

/-- Different values are written differently. -/
theorem write_inj {depth : Nat} {j k : Json} (hj : j.IsFinite) (hk : k.IsFinite)
    (h : style.write depth j = style.write depth k) : j = k := by
  have hends : Numeral.Ends [] := by
    rintro _ ⟨⟩
  exact (style.tells j depth hj k [] [] hk hends hends (by rw [h])).1

end Style

/-! ## The two styles -/

theorem compactEach_eq_map (items : List Json) : compactEach items = items.map compact := by
  induction items with
  | nil => rfl
  | cons j rest ih => rw [compactEach, ih, List.map_cons]

theorem compactFields_eq_map (fields : List (String × Json)) :
    compactFields fields = fields.map (fieldText [':'] compact) := by
  induction fields with
  | nil => rfl
  | cons f rest ih =>
    rw [compactFields, ih, List.map_cons]
    rfl

theorem prettyEach_eq_map (depth : Nat) (items : List Json) : prettyEach depth items = items.map (prettyAt depth) := by
  induction items with
  | nil => rfl
  | cons j rest ih => rw [prettyEach, ih, List.map_cons]

theorem prettyFields_eq_map (depth : Nat) (fields : List (String × Json)) :
    prettyFields depth fields = fields.map (fieldText [':', ' '] (prettyAt depth)) := by
  induction fields with
  | nil => rfl
  | cons f rest ih =>
    rw [prettyFields, ih, List.map_cons]
    rfl

/-- Elements with a separator between them, as they stand in a row. -/
theorem followed_eq (inner outer : List Char) (right : Char) (element : List Char) (rest : List (List Char)) :
    element ++ followed inner outer right rest
      = (',' :: inner).intercalate (element :: rest) ++ outer ++ [right] := by
  induction rest generalizing element with
  | nil => simp [followed]
  | cons next rest ih =>
    rw [followed, List.intercalate_cons_cons, List.append_assoc inner, ih]
    simp

theorem block_eq_enclosed (left right : Char) (depth : Nat) (elements : List (List Char)) :
    block left right depth elements = left :: enclosed (newLine (depth + 1)) (newLine depth) right elements := by
  cases elements with
  | nil => rfl
  | cons element rest =>
    have hrow := followed_eq (newLine (depth + 1)) (newLine depth) right element rest
    rw [block, if_neg (by rw [List.isEmpty_cons]; exact Bool.false_ne_true), enclosed, List.append_assoc _ element, hrow]
    simp only [List.append_assoc, List.cons_append]

/-- A value on one line. -/
def Style.oneLine : Style where
  write _ := compact
  gap _ := []
  colon := [':']
  isGap_gap _ _ h := nomatch h
  write_atom _ j h := by
    cases j <;> first | rfl | cases h
  write_array _ items := by
    rw [compact, compactEach_eq_map]
    cases items with
    | nil => rfl
    | cons j rest => rw [List.map_cons, enclosed, List.nil_append, followed_eq, List.append_nil, List.cons_append]
  write_object _ fields := by
    rw [compact, compactFields_eq_map]
    cases fields with
    | nil => rfl
    | cons f rest => rw [List.map_cons, enclosed, List.nil_append, followed_eq, List.append_nil, List.cons_append]

theorem isGap_newLine (depth : Nat) : IsGap (newLine depth) := by
  intro c hc
  rcases List.mem_cons.1 hc with rfl | hc
  · exact .inr rfl
  · exact .inl (List.eq_of_mem_replicate hc)

/-- A value with one element a line. -/
def Style.indented : Style where
  write := prettyAt
  gap := newLine
  colon := [':', ' ']
  isGap_gap := isGap_newLine
  write_atom _ j h := by
    cases j <;> first | rfl | cases h
  write_array depth items := by
    rw [prettyAt, prettyEach_eq_map, block_eq_enclosed]
  write_object depth fields := by
    rw [prettyAt, prettyFields_eq_map, block_eq_enclosed]

/-- Different values have different texts on one line. -/
theorem text_inj {j k : Json} (hj : j.IsFinite) (hk : k.IsFinite) (h : j.text = k.text) : j = k :=
  have hwritten : Style.oneLine.write 0 j = Style.oneLine.write 0 k := String.ofList_injective h
  Style.oneLine.write_inj hj hk hwritten

/-- Different values have different texts with one element a line. -/
theorem prettyText_inj {j k : Json} (hj : j.IsFinite) (hk : k.IsFinite) (h : j.prettyText = k.prettyText) : j = k :=
  Style.indented.write_inj hj hk (String.ofList_injective h)

end Cadence.Json
