import Mathlib.Data.List.Induction
import Cadence.Proofs.Program.Scanning
import Cadence.Proofs.Program.Tokens

/-!
# Scans that agree with productions

A scan agrees with what a production comes to if it gives the same value with its head in front of what the production
leaves, or the same complaint, and is as deep in brackets as before (`Scan.Agrees`). Agreement is kept behind a step
(`Agrees.step`, `Agrees.bind`), inside of brackets as long as the depth allows them (`agrees_nested`), and in a
repetition that takes something from the text each time (`Agrees.loop_more`). So the tokens of a text are scanned as
they are read (`agrees_numberLiteral`, `agrees_quoted`). The head stands where the bytes in front of it end
(`sizeBefore`), and the place of a complaint is found from these bytes as well as from what is left
(`Place.ofOffset_sizeBefore`).
-/

namespace Cadence

open String (utf8Len)

/-! ## Sizes -/

/-- The bytes of a text in front of its last part. -/
def sizeBefore (source rest : List Char) : Nat :=
  utf8Len source - utf8Len rest

theorem sizeBefore_append (before rest : List Char) : sizeBefore (before ++ rest) rest = utf8Len before := by
  rw [sizeBefore, String.utf8Len_append]
  omega

theorem behind?_zero (s : List Char) : behind? s 0 = some s := by
  unfold behind?
  rfl

theorem behind?_cons (c : Char) (s : List Char) (size : Nat) :
    behind? (c :: s) (size + c.utf8Size) = behind? s size := by
  have hc := c.utf8Size_pos
  obtain ⟨n, hn⟩ : ∃ n, size + c.utf8Size = n + 1 := ⟨size + c.utf8Size - 1, by omega⟩
  rw [hn, behind?, if_pos (by omega)]
  congr 1
  omega

theorem behind?_append (before rest : List Char) : behind? (before ++ rest) (utf8Len before) = some rest := by
  induction before with
  | nil => exact behind?_zero rest
  | cons c before ih =>
    rw [String.utf8Len_cons, List.cons_append, behind?_cons]
    exact ih

theorem behind?_sizeBefore {source rest : List Char} (h : rest <:+ source) :
    behind? source (sizeBefore source rest) = some rest := by
  obtain ⟨before, rfl⟩ := h
  rw [sizeBefore_append]
  exact behind?_append before rest

theorem sizeBefore_le (source rest : List Char) : sizeBefore source rest ≤ utf8Len source :=
  Nat.sub_le _ _

/-- The shorter a last part is, the more is in front of it. -/
theorem sizeBefore_lt {source s t : List Char} (hs : s <:+ source) (ht : t <:+ source) (hlt : t.length < s.length) :
    sizeBefore source s < sizeBefore source t := by
  obtain ⟨more, rfl⟩ := List.suffix_of_suffix_length_le ht hs (Nat.le_of_lt hlt)
  obtain ⟨before, rfl⟩ := hs
  have hsize : 0 < utf8Len more := by
    have hpos : 0 < more.length := by
      rw [List.length_append] at hlt
      omega
    obtain ⟨c, r, rfl⟩ := List.exists_cons_of_length_pos hpos
    rw [String.utf8Len_cons]
    have := c.utf8Size_pos
    omega
  rw [sizeBefore_append, ← List.append_assoc, sizeBefore_append, String.utf8Len_append]
  omega

theorem sizeBefore_self (source : List Char) : sizeBefore source source = 0 :=
  Nat.sub_self _

theorem sizeBefore_tail {source r : List Char} {c : Char} (h : c :: r <:+ source) :
    sizeBefore source (c :: r) + c.utf8Size = sizeBefore source r := by
  obtain ⟨before, rfl⟩ := h
  rw [sizeBefore_append, List.append_cons, sizeBefore_append, String.utf8Len_append]
  exact congrArg (utf8Len before + ·) (Nat.zero_add c.utf8Size).symm

theorem textBefore_append (before rest : List Char) : textBefore (before ++ rest) rest = before := by
  rw [textBefore, List.length_append, Nat.add_sub_cancel, List.take_left]

theorem Place.frontOfSize_append (before rest : List Char) :
    Place.frontOfSize (utf8Len before) (before ++ rest) = before := by
  induction before with
  | nil =>
    cases rest with
    | nil => rfl
    | cons c r =>
      rw [List.nil_append, frontOfSize, if_neg]
      exact Nat.not_le.2 c.utf8Size_pos
  | cons c before ih =>
    rw [List.cons_append, frontOfSize, String.utf8Len_cons, if_pos (Nat.le_add_left _ _), Nat.add_sub_cancel, ih]

/-- A place is found from the bytes in front of it as well as from what is left behind it. -/
theorem Place.ofOffset_sizeBefore {source rest : List Char} (h : rest <:+ source) :
    Place.ofOffset source (sizeBefore source rest) = Place.ofRest source rest := by
  obtain ⟨before, rfl⟩ := h
  rw [sizeBefore_append, ofOffset, frontOfSize_append, ofRest, textBefore_append]

/-- The place behind a text: its bytes, one more than its line feeds, and one more than the characters of its last
line. -/
theorem Place.after_eq (before : List Char) :
    Place.after before
      = ⟨utf8Len before, before.count '\n' + 1, (before.reverse.takeWhile (· ≠ '\n')).length + 1⟩ := by
  induction before using List.reverseRecOn with
  | nil => rfl
  | append_singleton before c ih =>
    rw [after_concat, ih, next, List.reverse_concat, List.count_append, String.utf8Len_append]
    by_cases hc : c = '\n'
    · subst hc
      rfl
    · have htake : (c :: before.reverse).takeWhile (· ≠ '\n') = c :: before.reverse.takeWhile (· ≠ '\n') :=
        List.takeWhile_cons_of_pos (decide_eq_true hc)
      have hcount : [c].count '\n' = 0 := List.count_eq_zero.2 fun h => hc (List.mem_singleton.1 h).symm
      have hsize : utf8Len [c] = c.utf8Size := Nat.zero_add _
      rw [if_neg hc, htake, hcount, hsize, List.length_cons]

/-! ## Tokens at the front of a text -/

theorem textBefore_dropWhile (p : Char → Bool) (s : List Char) : textBefore s (s.dropWhile p) = s.takeWhile p := by
  conv in textBefore s => rw [← List.takeWhile_append_dropWhile (p := p) (l := s)]
  exact textBefore_append _ _

theorem dropWhile_of_isEmpty {s : List Char} {p : Char → Bool} (h : (s.takeWhile p).isEmpty = true) :
    s.dropWhile p = s := by
  conv_rhs => rw [← List.takeWhile_append_dropWhile (p := p) (l := s), List.isEmpty_iff.1 h]
  rfl

theorem isEmpty_takeWhile (p : Char → Bool) (s : List Char) : (s.takeWhile p).isEmpty = !s.head?.any p := by
  cases s with
  | nil => rfl
  | cons c r =>
    by_cases hc : p c = true
    · rw [List.takeWhile_cons_of_pos hc, List.head?_cons, Option.any_some, hc]
      rfl
    · rw [List.takeWhile_cons_of_neg hc, List.head?_cons, Option.any_some, Bool.eq_false_of_not_eq_true hc]
      rfl

theorem isNamePart_of_isAlpha {c : Char} (h : c.isAlpha = true) : isNamePart c = true := by
  rw [isNamePart, Char.isAlphanum, h]
  rfl

theorem scanSign_of_ne {s : List Char} (hplus : s.head? ≠ some '+') (hminus : s.head? ≠ some '-') :
    Numeral.scanSign s = (false, s) := by
  unfold Numeral.scanSign
  split
  · exact absurd rfl hminus
  · exact absurd rfl hplus
  · rfl

theorem scanExponent_cons_of_ne {c : Char} (h : ¬(c = 'e' ∨ c = 'E')) (r : List Char) :
    Numeral.scanExponent (c :: r) = (none, c :: r) := by
  rw [Numeral.scanExponent, if_neg h]

/-- The digits of an exponent are behind its letter and its sign. -/
theorem getElem?_scanSign (c : Char) (r : List Char) :
    (c :: r)[1 + if r.head? = some '+' ∨ r.head? = some '-' then 1 else 0]? = (Numeral.scanSign r).2.head? := by
  by_cases hminus : r.head? = some '-'
  · obtain ⟨r', rfl⟩ := List.head?_eq_some_iff.1 hminus
    rw [if_pos (.inr rfl)]
    cases r' <;> rfl
  · by_cases hplus : r.head? = some '+'
    · obtain ⟨r', rfl⟩ := List.head?_eq_some_iff.1 hplus
      rw [if_pos (.inl rfl)]
      cases r' <;> rfl
    · rw [if_neg (fun h => h.elim hplus hminus), scanSign_of_ne hplus hminus]
      cases r <;> rfl

theorem SignText.suffix {signed negative : Bool} {s t : List Char} (h : SignText signed negative s t) : t <:+ s := by
  cases h with
  | none => exact List.suffix_refl _
  | plus => exact List.suffix_cons '+' t
  | minus => exact List.suffix_cons '-' t

theorem FractionText.suffix {fraction : Option (List Char)} {s t : List Char} (h : FractionText fraction s t) :
    t <:+ s := by
  cases h with
  | none => exact List.suffix_refl _
  | point => exact (List.suffix_append _ t).trans (List.suffix_cons '.' _)

theorem ExponentText.suffix {exponent : Option Int} {s t : List Char} (h : ExponentText exponent s t) : t <:+ s := by
  cases h with
  | none => exact List.suffix_refl _
  | power _ hsign => exact (List.suffix_append _ t).trans (hsign.suffix.trans (List.suffix_cons _ _))

/-- What is left of a text behind a numeral is its last part. -/
theorem scan_suffix (signed : Bool) (s : List Char) :
    (Numeral.scan (Numeral.scanSignIf signed s).2).2 <:+ s :=
  (exponentText_scanExponent _).suffix.trans ((fractionText_scanFraction _).suffix.trans
    ((List.dropWhile_suffix Char.isDigit).trans (signText_scanSignIf signed s).suffix))

/-! ## Agreement -/

/-- The head in front of the last part of a text. -/
def Head.before (source rest : List Char) (depth : Nat) : Head :=
  ⟨sizeBefore source rest, depth⟩

/-- What a production comes to: a value and what is left, or a complaint. -/
def outcome {α : Type} {bound : Nat} (result : Except Complaint (Reading α bound)) : Except Complaint (α × List Char) :=
  result.map fun found => (found.value, found.rest)

/-- What is read stays what it is where the bound for what is left is a greater one. -/
theorem outcome_bind_pure {α : Type} {bound bound' : Nat} (result : Except Complaint (Reading α bound))
    (h : ∀ found : Reading α bound, found.rest.length < bound') :
    outcome (result >>= fun found => pure ⟨found.value, found.rest, h found⟩) = outcome result := by
  cases result with
  | ok found => rfl
  | error c => rfl

theorem rest_lt_of_outcome {α : Type} {bound : Nat} {result : Except Complaint (Reading α bound)} {a : α}
    {t : List Char} (h : outcome result = .ok (a, t)) : t.length < bound := by
  cases result with
  | ok found =>
    cases h
    exact found.rest_lt
  | error c => cases h

theorem ok_bind {α β ε : Type} (a : α) (f : α → Except ε β) : (Except.ok a >>= f) = f a :=
  rfl

namespace Scan

variable {α β σ : Type} {source : List Char} {depth : Nat}

/-- In front of the text `s`, a scan comes to the value or the complaint of a production, in front of what the
production leaves, or anywhere in the source for a complaint; it is as deep in brackets as before. -/
def Agrees (source : List Char) (depth : Nat) (scan : Scan α) (s : List Char) :
    Except Complaint (α × List Char) → Prop
  | .ok (a, t) => s <:+ source →
    t <:+ source ∧ scan source (.before source s depth) = some (.ok a, .before source t depth)
  | .error c => s <:+ source →
    c.rest <:+ source ∧ ∃ t, t <:+ source ∧
      scan source (.before source s depth) = some (.error (c.toSyntaxError source), .before source t depth)

theorem bind_of_ok {scan : Scan α} {f : α → Scan β} {head head' : Head} {a : α}
    (h : scan source head = some (.ok a, head')) : (scan >>= f) source head = f a source head' := by
  show (scan source head >>= fun r => _) = _
  rw [h]
  rfl

theorem bind_of_error {scan : Scan α} {f : α → Scan β} {head head' : Head} {e : SyntaxError}
    (h : scan source head = some (.error e, head')) : (scan >>= f) source head = some (.error e, head') := by
  show (scan source head >>= fun r => _) = _
  rw [h]
  rfl

namespace Agrees

variable {scan : Scan α} {s t : List Char} {a : α} {c : Complaint}

theorem pure (a : α) (s : List Char) : Agrees source depth (Pure.pure a) s (.ok (a, s)) :=
  fun hs => ⟨hs, rfl⟩

/-- A scan goes on behind a value. -/
theorem step {f : α → Scan β} {result : Except Complaint (β × List Char)}
    (h : Agrees source depth scan s (.ok (a, t))) (hf : Agrees source depth (f a) t result) :
    Agrees source depth (scan >>= f) s result := by
  cases result with
  | ok p =>
    intro hs
    obtain ⟨ht, hscan⟩ := h hs
    rw [bind_of_ok hscan]
    exact hf ht
  | error e =>
    intro hs
    obtain ⟨ht, hscan⟩ := h hs
    rw [bind_of_ok hscan]
    exact hf ht

/-- A complaint is the end. -/
theorem fail {f : α → Scan β} (h : Agrees source depth scan s (.error c)) :
    Agrees source depth (scan >>= f) s (.error c) := by
  intro hs
  obtain ⟨hc, t, ht, hscan⟩ := h hs
  exact ⟨hc, t, ht, bind_of_error hscan⟩

/-- A scan in two parts agrees with a production in two parts. -/
theorem bind {bound bound' : Nat} {f : α → Scan β} {result : Except Complaint (Reading α bound)}
    {g : Reading α bound → Except Complaint (Reading β bound')} (h : Agrees source depth scan s (outcome result))
    (hf : ∀ found, result = .ok found → Agrees source depth (f found.value) found.rest (outcome (g found))) :
    Agrees source depth (scan >>= f) s (outcome (result >>= g)) := by
  cases result with
  | ok found => exact step h (hf found rfl)
  | error c => exact fail h

theorem map {result : Except Complaint (α × List Char)} (h : Agrees source depth scan s result) (f : α → β) :
    Agrees source depth (scan >>= fun a => Pure.pure (f a)) s (result.map fun p => (f p.1, p.2)) := by
  cases result with
  | ok p => exact step h (pure (f p.1) p.2)
  | error c => exact fail h

end Agrees

/-! ## The head -/

section Head

variable {s t u : List Char}

theorem agrees_offset (s : List Char) : Agrees source depth offset s (.ok (sizeBefore source s, s)) :=
  fun hs => ⟨hs, rfl⟩

theorem agrees_textAt (hu : u <:+ source) : Agrees source depth (textAt (sizeBefore source u)) s (.ok (u, s)) := by
  intro hs
  refine ⟨hs, ?_⟩
  rw [textAt, behind?_sizeBefore hu]
  rfl

theorem agrees_moveTo (hu : u <:+ source) : Agrees source depth (moveTo (sizeBefore source u)) s (.ok ((), u)) := by
  intro _
  refine ⟨hu, ?_⟩
  rw [moveTo, behind?_sizeBefore hu]
  rfl

/-- What agrees if the head stands in the source agrees. -/
theorem Agrees.of_suffix {scan : Scan α} {result : Except Complaint (α × List Char)}
    (h : s <:+ source → Agrees source depth scan s result) : Agrees source depth scan s result := by
  cases result with
  | ok p => exact fun hs => h hs hs
  | error c => exact fun hs => h hs hs

theorem agrees_peek (s : List Char) : Agrees source depth peek s (.ok (s.head?, s)) := by
  refine .of_suffix fun hs => ?_
  exact (agrees_offset s).step ((agrees_textAt hs).step (.pure _ s))

theorem agrees_peekNth (n : Nat) (s : List Char) : Agrees source depth (peekNth n) s (.ok (s[n]?, s)) := by
  refine .of_suffix fun hs => ?_
  exact (agrees_offset s).step ((agrees_textAt hs).step (.pure _ s))

theorem agrees_bump_cons (c : Char) (r : List Char) : Agrees source depth bump (c :: r) (.ok (some c, r)) := by
  refine .of_suffix fun hs => ?_
  refine (agrees_peek (c :: r)).step ((agrees_offset (c :: r)).step ?_)
  rw [sizeBefore_tail hs]
  exact (agrees_moveTo ((List.suffix_cons c r).trans hs)).step (.pure _ r)

theorem agrees_bump_nil : Agrees source depth bump [] (.ok (none, [])) :=
  (agrees_peek []).step (.pure none [])

theorem agrees_slice (hu : u <:+ source) (hs : s <:+ u) :
    Agrees source depth (slice (sizeBefore source u) (sizeBefore source s)) s (.ok (textBefore u s, s)) := by
  refine (agrees_textAt hu).step ((agrees_textAt (hs.trans hu)).step ?_)
  have hle : sizeBefore source u ≤ sizeBefore source s :=
    Nat.sub_le_sub_left (String.utf8Len_le_of_suffix hs) _
  rw [if_pos hle]
  exact .pure _ s

theorem agrees_refuse (hu : u <:+ source) {fault : Fault} {words : String} (hwords : fault.words u.head? = words) :
    Agrees source depth (refuse (α := α) (sizeBefore source u) words) s (.error ⟨fault, u⟩) := by
  intro hs
  refine ⟨hu, s, hs, ?_⟩
  rw [refuse, Nat.min_eq_left (sizeBefore_le source u), behind?_sizeBefore hu, Place.ofOffset_sizeBefore hu, ← hwords]
  rfl

theorem agrees_unexpected (what : Expectation) (s : List Char) :
    Agrees source depth (unexpected (α := α) what.words) s (.error ⟨.expected what, s⟩) := by
  refine .of_suffix fun hs => ?_
  refine (agrees_peek s).step ?_
  cases s with
  | nil => exact (agrees_offset []).step (agrees_refuse hs rfl)
  | cons c r => exact (agrees_offset (c :: r)).step (agrees_refuse hs rfl)

/-- Brackets are left behind whatever stands inside them comes to. -/
theorem nested_of_some {inner : Scan α} (head head' : Head) {result : Except SyntaxError α}
    (hdepth : head.depth < maxNesting)
    (h : inner source { head with depth := head.depth + 1 } = some (result, head')) (hpos : 0 < head'.depth) :
    nested inner source head = some (result, { head' with depth := head'.depth - 1 }) := by
  rw [nested, if_neg (Nat.not_le.2 hdepth), h]
  exact if_pos hpos

theorem agrees_nested {inner : Scan α} {result : Except Complaint (α × List Char)} (hdepth : depth < maxNesting)
    (h : Agrees source (depth + 1) inner s result) : Agrees source depth (nested inner) s result := by
  cases result with
  | ok p =>
    intro hs
    obtain ⟨ht, hinner⟩ := h hs
    exact ⟨ht,
      nested_of_some (.before source s depth) (.before source p.2 (depth + 1)) hdepth hinner (Nat.succ_pos depth)⟩
  | error c =>
    intro hs
    obtain ⟨hc, t, ht, hinner⟩ := h hs
    exact ⟨hc, t, ht,
      nested_of_some (.before source s depth) (.before source t (depth + 1)) hdepth hinner (Nat.succ_pos depth)⟩

/-- Where the depth is the greatest, brackets are refused. -/
theorem agrees_nested_of_tooDeep (inner : Scan α) (s : List Char) :
    Agrees source maxNesting (nested inner) s (.error ⟨.tooDeep, s⟩) := by
  refine .of_suffix fun hs => ?_
  intro _
  have hrefuse : Agrees source maxNesting (refuse (sizeBefore source s) (Fault.tooDeep.words none) : Scan α) s
      (.error ⟨.tooDeep, s⟩) := agrees_refuse hs rfl
  have hnested : nested inner source (.before source s maxNesting)
      = refuse (sizeBefore source s) (Fault.tooDeep.words none) source (.before source s maxNesting) :=
    if_pos (Nat.le_refl maxNesting)
  rw [hnested]
  exact hrefuse hs

end Head

/-! ## Repetition -/

section Loop

variable {step : σ → Scan (σ ⊕ α)} {state state' : σ} {s t : List Char}

theorem Agrees.loop_done {a : α} (h : Agrees source depth (step state) s (.ok (.inr a, t))) :
    Agrees source depth (loop step state) s (.ok (a, t)) := by
  intro hs
  obtain ⟨ht, hstep⟩ := h hs
  refine ⟨ht, ?_⟩
  rw [loop, hstep]

theorem Agrees.loop_fail {c : Complaint} (h : Agrees source depth (step state) s (.error c)) :
    Agrees source depth (loop step state) s (.error c) := by
  intro hs
  obtain ⟨hc, t, ht, hstep⟩ := h hs
  refine ⟨hc, t, ht, ?_⟩
  rw [loop, hstep]

/-- A repetition goes on where the head stands further than before. -/
theorem Agrees.loop_more {result : Except Complaint (α × List Char)}
    (h : Agrees source depth (step state) s (.ok (.inl state', t))) (hlt : t.length < s.length)
    (hnext : Agrees source depth (loop step state') t result) : Agrees source depth (loop step state) s result := by
  refine .of_suffix fun hs => ?_
  obtain ⟨ht, hstep⟩ := h hs
  have hfurther : sizeBefore source s < sizeBefore source t := sizeBefore_lt hs ht hlt
  have hloop : loop step state source (.before source s depth) = loop step state' source (.before source t depth) := by
    rw [loop, hstep]
    exact if_pos ⟨hfurther, sizeBefore_le source t⟩
  cases result with
  | ok p =>
    intro _
    rw [hloop]
    exact hnext ht
  | error c =>
    intro _
    rw [hloop]
    exact hnext ht

/-- A step that leads on is followed by the rest of the repetition. -/
theorem Agrees.loop_bind {result : Except Complaint (σ × List Char)}
    {rest : σ × List Char → Except Complaint (α × List Char)}
    (h : Agrees source depth (step state) s (result.map fun p => (.inl p.1, p.2)))
    (hrest : ∀ state' t, result = .ok (state', t) →
      t.length < s.length ∧ Agrees source depth (loop step state') t (rest (state', t))) :
    Agrees source depth (loop step state) s (result >>= rest) := by
  cases result with
  | ok p =>
    obtain ⟨hlt, hnext⟩ := hrest p.1 p.2 rfl
    exact Agrees.loop_more h hlt hnext
  | error c => exact Agrees.loop_fail h

end Loop

/-! ## Tokens -/

section Tokens

variable {s r : List Char}

theorem agrees_skipWhile (p : Char → Bool) (s : List Char) :
    Agrees source depth (skipWhile p) s (.ok ((), s.dropWhile p)) := by
  induction s with
  | nil => exact Agrees.loop_done ((agrees_peek []).step (.pure _ []))
  | cons c r ih =>
    by_cases hc : p c = true
    · rw [List.dropWhile_cons_of_pos hc]
      have hhead : (c :: r).head?.any p = true := hc
      refine Agrees.loop_more ((agrees_peek (c :: r)).step ?_) (Nat.lt_succ_self _) ih
      rw [if_pos hhead]
      exact (agrees_bump_cons c r).step (.pure _ r)
    · rw [List.dropWhile_cons_of_neg hc]
      refine Agrees.loop_done ((agrees_peek (c :: r)).step ?_)
      have hhead : ¬(c :: r).head?.any p = true := hc
      rw [if_neg hhead]
      exact .pure _ (c :: r)

theorem agrees_takeWhile (p : Char → Bool) (s : List Char) :
    Agrees source depth (takeWhile p) s (.ok (s.takeWhile p, s.dropWhile p)) := by
  refine .of_suffix fun hs => ?_
  have hrest : s.dropWhile p <:+ s := List.dropWhile_suffix p
  refine (agrees_offset s).step ((agrees_skipWhile p s).step ((agrees_offset _).step ?_))
  rw [← textBefore_dropWhile]
  exact agrees_slice hs hrest

theorem agrees_skipBlanks (s : List Char) : Agrees source depth skipBlanks s (.ok ((), Cadence.skipBlanks s)) :=
  agrees_skipWhile isBlank s

theorem agrees_eat (c : Char) (r : List Char) : Agrees source depth (eat c) (c :: r) (.ok (true, r)) := by
  refine (agrees_peek (c :: r)).step ?_
  rw [if_pos (List.head?_cons)]
  exact (agrees_bump_cons c r).step (.pure true r)

theorem agrees_eat_of_ne {c : Char} (h : s.head? ≠ some c) : Agrees source depth (eat c) s (.ok (false, s)) := by
  refine (agrees_peek s).step ?_
  rw [if_neg h]
  exact .pure false s

theorem agrees_expect (c : Char) (what : Expectation) (s : List Char) :
    Agrees source depth (expect c what) s (outcome (mark c what s)) := by
  cases s with
  | nil => exact (agrees_eat_of_ne (by simp)).step (agrees_unexpected what [])
  | cons d r =>
    by_cases hd : d = c
    · subst hd
      rw [mark, if_pos rfl]
      exact (agrees_eat d r).step (.pure () r)
    · rw [mark, if_neg hd]
      have hne : (d :: r).head? ≠ some c := fun h => hd (Option.some.inj h)
      exact (agrees_eat_of_ne hne).step (agrees_unexpected what (d :: r))

theorem agrees_identifier {c : Char} (hc : c.isAlpha = true) (what : Expectation) (r : List Char) :
    Agrees source depth identifier (c :: r) (outcome (name what (c :: r))) := by
  refine (agrees_peek (c :: r)).step ?_
  have hhead : (c :: r).head?.any Char.isAlpha = true := hc
  have hpart := isNamePart_of_isAlpha hc
  have htake : Agrees source depth (takeWhile isNamePart) (c :: r)
      (.ok ((c :: r).takeWhile isNamePart, (c :: r).dropWhile isNamePart)) := agrees_takeWhile isNamePart (c :: r)
  rw [List.takeWhile_cons_of_pos hpart, List.dropWhile_cons_of_pos hpart] at htake
  rw [if_pos hhead, name, if_pos hc]
  exact htake

theorem agrees_sign (signed : Bool) (s : List Char) :
    Agrees source depth (sign signed) s (.ok ((Numeral.scanSignIf signed s).1, (Numeral.scanSignIf signed s).2)) := by
  refine (agrees_peek s).step ?_
  cases signed with
  | false =>
    rw [if_neg (fun h => Bool.false_ne_true h.1)]
    exact .pure false s
  | true =>
    show Agrees source depth _ s (.ok ((Numeral.scanSign s).1, (Numeral.scanSign s).2))
    by_cases hminus : s.head? = some '-'
    · obtain ⟨r, rfl⟩ := List.head?_eq_some_iff.1 hminus
      rw [if_pos ⟨rfl, .inr rfl⟩]
      exact (agrees_bump_cons '-' r).step (.pure true r)
    · by_cases hplus : s.head? = some '+'
      · obtain ⟨r, rfl⟩ := List.head?_eq_some_iff.1 hplus
        rw [if_pos ⟨rfl, .inl rfl⟩]
        exact (agrees_bump_cons '+' r).step (.pure false r)
      · rw [if_neg (fun h => h.2.elim hplus hminus), scanSign_of_ne hplus hminus]
        exact .pure false s

end Tokens

/-! ## Numbers and strings -/

section Numbers

variable {s r : List Char}

theorem agrees_exponent (s : List Char) :
    Agrees source depth exponent s (.ok ((Numeral.scanExponent s).1, (Numeral.scanExponent s).2)) := by
  refine (agrees_peek s).step ?_
  cases s with
  | nil => exact .pure none []
  | cons c r =>
    by_cases hc : c = 'e' ∨ c = 'E'
    · have hletter : (c :: r).head? = some 'e' ∨ (c :: r).head? = some 'E' :=
        hc.imp (congrArg some) (congrArg some)
      rw [if_pos hletter]
      refine (agrees_peekNth 1 (c :: r)).step ((agrees_peekNth _ (c :: r)).step ?_)
      rw [List.getElem?_cons_succ, ← List.head?_eq_getElem?, getElem?_scanSign]
      rw [Numeral.scanExponent, if_pos hc]
      dsimp only [Numeral.scanDigits]
      rw [isEmpty_takeWhile]
      by_cases hdigit : (Numeral.scanSign r).2.head?.any Char.isDigit = true
      · rw [if_pos hdigit, hdigit, if_neg (by decide)]
        refine (agrees_bump_cons c r).step ((agrees_sign true r).step ((agrees_takeWhile _ _).step ?_))
        exact .pure _ _
      · rw [if_neg hdigit, Bool.eq_false_of_not_eq_true hdigit, if_pos (by decide)]
        exact .pure none (c :: r)
    · have hletter : ¬((c :: r).head? = some 'e' ∨ (c :: r).head? = some 'E') :=
        fun h => hc (h.imp Option.some.inj Option.some.inj)
      rw [if_neg hletter, scanExponent_cons_of_ne hc]
      exact .pure none (c :: r)

/-- Without a digit or a point in front there is no number. -/
theorem agrees_fraction_of_missing {start : Nat} {whole r t : List Char}
    (h : (whole.isEmpty && (Numeral.scanFraction r).1.isNone) = true) (hr : r = t) :
    Agrees source depth (fraction start whole) r (.error ⟨.expected .number, t⟩) := by
  subst hr
  obtain ⟨hwhole, hnone⟩ := Bool.and_eq_true_iff.1 h
  have hpoint : r.head? ≠ some '.' := by
    intro hpoint
    obtain ⟨r', rfl⟩ := List.head?_eq_some_iff.1 hpoint
    exact absurd hnone Bool.false_ne_true
  refine (agrees_peek r).step ?_
  rw [if_neg hpoint, if_pos hwhole]
  exact agrees_unexpected .number r

/-- A point needs a digit on one of its sides. -/
theorem agrees_fraction_of_not_hasDigits (hs : s <:+ source) {whole : List Char} (r : List Char)
    {exponent : Option Int} (hempty : ¬(whole.isEmpty && (Numeral.scanFraction r).1.isNone) = true)
    (h : ¬Numeral.hasDigits ⟨whole, (Numeral.scanFraction r).1, exponent⟩ = true) :
    Agrees source depth (fraction (sizeBefore source s) whole) r (.error ⟨.noDigits, s⟩) := by
  by_cases hpoint : r.head? = some '.'
  · obtain ⟨r', rfl⟩ := List.head?_eq_some_iff.1 hpoint
    have hdigits : whole.isEmpty = true ∧ (r'.takeWhile Char.isDigit).isEmpty = true := by
      simpa [Numeral.hasDigits, Numeral.scanFraction, Numeral.scanDigits] using h
    refine (agrees_peek ('.' :: r')).step ?_
    rw [if_pos hpoint]
    refine (agrees_bump_cons '.' r').step ((agrees_takeWhile _ r').step ?_)
    rw [if_pos hdigits]
    exact agrees_refuse hs rfl
  · rw [Numeral.scanFraction_of_ne hpoint] at hempty h
    simp [Numeral.hasDigits] at hempty h
    exact absurd h hempty

theorem agrees_fraction {start : Nat} {whole : List Char} (r : List Char) {exponent : Option Int}
    (h : Numeral.hasDigits ⟨whole, (Numeral.scanFraction r).1, exponent⟩ = true) :
    Agrees source depth (fraction start whole) r
      (.ok ((Numeral.scanFraction r).1, (Numeral.scanFraction r).2)) := by
  refine (agrees_peek r).step ?_
  by_cases hpoint : r.head? = some '.'
  · obtain ⟨r', rfl⟩ := List.head?_eq_some_iff.1 hpoint
    have hdigits : ¬(whole.isEmpty = true ∧ (r'.takeWhile Char.isDigit).isEmpty = true) := by
      simpa [Numeral.hasDigits, Numeral.scanFraction, Numeral.scanDigits, Classical.or_iff_not_imp_left] using h
    rw [if_pos hpoint]
    refine (agrees_bump_cons '.' r').step ((agrees_takeWhile _ r').step ?_)
    rw [if_neg hdigits]
    exact .pure _ _
  · rw [Numeral.scanFraction_of_ne hpoint] at h ⊢
    have hwhole : ¬whole.isEmpty = true := by simpa [Numeral.hasDigits] using h
    rw [if_neg hpoint, if_neg hwhole]
    exact .pure none r

theorem agrees_worth (hs : s <:+ source) (negative : Bool) (n : Numeral) {rest : List Char}
    (hlt : rest.length < s.length) :
    Agrees source depth (worth (sizeBefore source s) (textBefore s rest) negative n) rest (outcome
      (if n.isInteger then
        match fitInt64 (if negative then -n.toNat else n.toNat) with
        | some i => .ok ⟨.int i, rest, hlt⟩
        | none => complain (.integerOutOfRange (textBefore s rest)) s
      else if (n.toBinary64 negative).isFinite then .ok ⟨.float (n.toBinary64 negative), rest, hlt⟩
      else complain (.numberOutOfRange (textBefore s rest)) s : Except Complaint (Reading Number s.length))) := by
  unfold worth
  by_cases hint : n.isInteger = true
  · rw [if_pos hint, if_pos hint]
    cases fitInt64 (if negative then -n.toNat else n.toNat) with
    | some i => exact .pure _ rest
    | none => exact agrees_refuse hs rfl
  · rw [if_neg hint, if_neg hint]
    by_cases hfinite : (n.toBinary64 negative).isFinite = true
    · rw [if_pos hfinite, if_pos hfinite]
      exact .pure _ rest
    · rw [if_neg hfinite, if_neg hfinite]
      exact agrees_refuse hs rfl

theorem agrees_numberLiteral (signed : Bool) (s : List Char) :
    Agrees source depth (numberLiteral signed) s (outcome (Cadence.numberLiteral signed s)) := by
  refine .of_suffix fun hs => ?_
  refine (agrees_offset s).step ((agrees_sign signed s).step ?_)
  refine (agrees_takeWhile Char.isDigit (Numeral.scanSignIf signed s).2).step ?_
  unfold Cadence.numberLiteral
  dsimp only
  by_cases hempty : ((Numeral.scan (Numeral.scanSignIf signed s).2).1.whole.isEmpty &&
      (Numeral.scan (Numeral.scanSignIf signed s).2).1.fraction.isNone) = true
  · rw [if_pos hempty]
    have hrest := dropWhile_of_isEmpty (Bool.and_eq_true_iff.1 hempty).1
    exact (agrees_fraction_of_missing hempty hrest).fail
  · rw [if_neg hempty]
    by_cases hdigits : (Numeral.scan (Numeral.scanSignIf signed s).2).1.hasDigits = true
    · rw [dif_pos hdigits]
      refine (agrees_fraction _ hdigits).step ((agrees_exponent _).step ((agrees_offset _).step ?_))
      exact (agrees_slice hs (scan_suffix signed s)).step (agrees_worth hs _ _ _)
    · rw [dif_neg hdigits]
      exact (agrees_fraction_of_not_hasDigits hs _ hempty hdigits).fail

/-- What is left of a string is taken as it is read. -/
theorem agrees_quotedFrom {s : List Char} (hs : s <:+ source) (before r : List Char) :
    Agrees source depth (quotedFrom (sizeBefore source s) before) r
      (match Quoted.decode r with
      | none => .error ⟨.unterminatedString, s⟩
      | some found => .ok (before ++ found.1, found.2)) := by
  fun_induction Quoted.decode r generalizing before with
  | case1 => exact Agrees.loop_fail (agrees_bump_nil.step (agrees_refuse hs rfl))
  | case2 r =>
    dsimp only
    rw [List.append_nil]
    exact Agrees.loop_done ((agrees_bump_cons '"' r).step (.pure _ r))
  | case3 =>
    refine Agrees.loop_fail ((agrees_bump_cons '\\' []).step ?_)
    exact agrees_bump_nil.step (agrees_refuse hs rfl)
  | case4 c r ih =>
    have hnext := ih (before ++ Quoted.unescape c)
    have hlt : r.length < ('\\' :: c :: r).length := Nat.lt_add_of_pos_right Nat.two_pos
    refine Agrees.loop_more ?_ hlt (?_ : Agrees source depth (quotedFrom _ (before ++ Quoted.unescape c)) r _)
    · exact (agrees_bump_cons '\\' (c :: r)).step ((agrees_bump_cons c r).step (.pure _ r))
    · cases hdecode : Quoted.decode r with
      | none =>
        rw [hdecode] at hnext
        exact hnext
      | some found =>
        rw [hdecode] at hnext
        dsimp only [Option.map_some]
        rw [← List.append_assoc]
        exact hnext
  | case5 c r hquote hend hbackslash ih =>
    have hnext := ih (before ++ [c])
    have hc : c ≠ '\\' := by
      rintro rfl
      cases r with
      | nil => exact hend rfl rfl
      | cons d r => exact hbackslash d r rfl rfl
    have hlt : r.length < (c :: r).length := Nat.lt_succ_self _
    refine Agrees.loop_more ?_ hlt (?_ : Agrees source depth (quotedFrom _ (before ++ [c])) r _)
    · refine (agrees_bump_cons c r).step ?_
      dsimp only
      rw [if_neg (fun h => hquote h), if_neg hc]
      exact .pure _ r
    · cases hdecode : Quoted.decode r with
      | none =>
        rw [hdecode] at hnext
        exact hnext
      | some found =>
        rw [hdecode] at hnext
        dsimp only [Option.map_some] at hnext ⊢
        rw [List.append_assoc] at hnext
        exact hnext

theorem agrees_quoted (r : List Char) :
    Agrees source depth quoted ('"' :: r)
      (match Quoted.decode r with
      | none => .error ⟨.unterminatedString, '"' :: r⟩
      | some found => .ok (found.1, found.2)) := by
  refine .of_suffix fun hs => ?_
  exact (agrees_offset _).step ((agrees_bump_cons '"' r).step (agrees_quotedFrom hs [] r))

end Numbers

end Scan
end Cadence
