import Cadence.Proofs.Program.Completeness
import Cadence.Proofs.Program.Tracking

/-!
# Steady scans

Reading a text comes to an end whatever the text is, and the head of the reader never leaves its place: on every text a
scan comes to a result, with the head on the boundary of a character and inside as many brackets as before
(`Scan.Settles`). The result is that of the productions, so what is shown of the one is true of the other. A complaint
has the place that its bytes, line feeds and characters say (`Place.after_eq`). The main result is `parse_settles`.
-/

namespace Cadence

open String (utf8Len)

/-! ## Places of complaints -/

/-- The complaint is about a boundary in the source, at its place. -/
def SyntaxError.IsPlaced (source : String) (e : SyntaxError) : Prop :=
  ∃ before rest, source.toList = before ++ rest ∧
    e.place = ⟨utf8Len before, before.count '\n' + 1, (before.reverse.takeWhile (· ≠ '\n')).length + 1⟩

theorem Complaint.isPlaced {source : String} {c : Complaint} (h : c.rest <:+ source.toList) :
    (c.toSyntaxError source.toList).IsPlaced source := by
  obtain ⟨before, hsource⟩ := h
  refine ⟨before, c.rest, hsource.symm, ?_⟩
  rw [← Place.after_eq, toSyntaxError, Place.ofRest, ← hsource, textBefore_append]

/-! ## Settled scans -/

/-- The head stands between two characters of the text, or at one of its ends. -/
def Head.OnBoundary (source : List Char) (head : Head) : Prop :=
  ∃ before rest, source = before ++ rest ∧ head.offset = utf8Len before

theorem Head.onBoundary_before {source rest : List Char} (h : rest <:+ source) (depth : Nat) :
    (Head.before source rest depth).OnBoundary source := by
  obtain ⟨before, rfl⟩ := h
  exact ⟨before, rest, rfl, sizeBefore_append before rest⟩

theorem Head.OnBoundary.exists_before {source : List Char} {head : Head} (h : head.OnBoundary source) :
    ∃ rest, rest <:+ source ∧ head = .before source rest head.depth := by
  obtain ⟨before, rest, rfl, hoffset⟩ := h
  refine ⟨rest, List.suffix_append before rest, ?_⟩
  rw [Head.before, sizeBefore_append, ← hoffset]

namespace Scan

variable {α : Type} {source : List Char}

/-- A scan comes to the result, with the head on a boundary of the text and inside as many brackets as before. -/
def Settles (scan : Scan α) (source : List Char) (head : Head) (result : Except SyntaxError α) : Prop :=
  ∃ head', scan source head = some (result, head') ∧ head'.OnBoundary source ∧ head'.depth = head.depth

theorem Agrees.settles {depth : Nat} {scan : Scan α} {s : List Char} {result : Except Complaint (α × List Char)}
    (h : Agrees source depth scan s result) (hs : s <:+ source) :
    Settles scan source (.before source s depth)
      ((result.map Prod.fst).mapError (·.toSyntaxError source)) := by
  cases result with
  | ok p =>
    obtain ⟨ht, hscan⟩ := h hs
    exact ⟨_, hscan, Head.onBoundary_before ht depth, rfl⟩
  | error c =>
    obtain ⟨_, t, ht, hscan⟩ := h hs
    exact ⟨_, hscan, Head.onBoundary_before ht depth, rfl⟩

theorem Settles.fail {β : Type} {scan : Scan α} {f : α → Scan β} {head : Head} {e : SyntaxError}
    (h : Settles scan source head (.error e)) : Settles (scan >>= f) source head (.error e) := by
  obtain ⟨head', hscan, hhead⟩ := h
  exact ⟨head', bind_of_error hscan, hhead⟩

/-! ## The parts of the grammar -/

/-- The parts of the grammar that a scan is for. -/
inductive Part
  | name
  | number (signed : Bool)
  | string
  | factor
  | term
  | expression
  | call
  /-- An argument that begins with a letter. -/
  | word
  | element (e : Element)
  | row (e : Element) (close : Char) (what : Expectation)
  | passes
  /-- A schedule of which the depth is counted already. -/
  | scheduleBody
  | schedule

def Part.Value : Part → Type
  | .name | .string => List Char
  | .number _ | .factor | .term | .expression => Number
  | .call => Call
  | .word => Argument
  | .element e => e.Value
  | .row e _ _ => List e.Value
  | .passes => Repeat
  | .scheduleBody | .schedule => Schedule

/-- The scan for an element, with so many levels left. -/
def ofElement (levels : Nat) : (e : Element) → Scan e.Value
  | .item => itemOf (Scan.schedule levels) (Scan.call levels)
  | .argument => Scan.argument levels
  | .entry => Scan.entry (Scan.argument levels)

/-- The scan for a part, with so many levels left. -/
def ofPart (levels : Nat) : (part : Part) → Scan part.Value
  | .name => identifier
  | .number signed => numberLiteral signed
  | .string => quoted
  | .factor => Scan.factor levels
  | .term => chain multiplicative? (Scan.factor levels)
  | .expression => Scan.expression levels
  | .call => Scan.call levels
  | .word => Scan.word (inside levels)
  | .element e => ofElement levels e
  | .row e close what => row (ofElement levels e) close what
  | .passes => passesOf (Scan.call levels)
  | .scheduleBody => Scan.scheduleBody (Scan.schedule levels) (Scan.call levels)
  | .schedule => Scan.schedule levels

section Settled

variable {depth levels : Nat} {s : List Char}

theorem settles_unexpected (depth : Nat) (words : String) (hs : s <:+ source) :
    ∃ e, Settles (unexpected words : Scan α) source (.before source s depth) (.error e) := by
  have hrefuse : ∀ words, Settles (refuse (sizeBefore source s) words : Scan α) source (.before source s depth)
      (.error ⟨words, Place.ofOffset source (sizeBefore source s)⟩) := by
    intro words
    refine ⟨.before source s depth, ?_, Head.onBoundary_before hs depth, rfl⟩
    rw [refuse, Nat.min_eq_left (sizeBefore_le source s), behind?_sizeBefore hs]
    rfl
  have hpeek : Agrees source depth peek s (.ok (s.head?, s)) := agrees_peek s
  have hoffset : Agrees source depth offset s (.ok (sizeBefore source s, s)) := agrees_offset s
  obtain ⟨_, hpeek⟩ := hpeek hs
  obtain ⟨_, hoffset⟩ := hoffset hs
  cases s with
  | nil =>
    obtain ⟨head', hscan, hhead⟩ := hrefuse (words ++ ", found end of input")
    exact ⟨_, head', (bind_of_ok hpeek).trans ((bind_of_ok hoffset).trans hscan), hhead⟩
  | cons c r =>
    obtain ⟨head', hscan, hhead⟩ := hrefuse (words ++ (", found '" ++ c.toString ++ "'"))
    exact ⟨_, head', (bind_of_ok hpeek).trans ((bind_of_ok hoffset).trans hscan), hhead⟩

/-- A name settles even where none begins. -/
theorem settles_identifier_of_not_isAlpha (depth : Nat) (h : ¬s.head?.any Char.isAlpha = true) (hs : s <:+ source) :
    ∃ e, Settles identifier source (.before source s depth) (.error e) := by
  have hpeek : Agrees source depth peek s (.ok (s.head?, s)) := agrees_peek s
  obtain ⟨_, hpeek⟩ := hpeek hs
  obtain ⟨e, head', hscan, hhead⟩ := settles_unexpected depth "expected identifier" hs
  refine ⟨e, head', (bind_of_ok hpeek).trans ?_, hhead⟩
  rw [if_neg h]
  exact hscan

theorem tracks_ofElement (hlevels : levels + depth = maxNesting) (e : Element) :
    Tracks source depth (ofElement levels e) (e.production levels) := by
  cases e with
  | item => exact tracks_itemOf hlevels (tracks_schedule levels hlevels)
  | argument => exact tracks_argument levels hlevels
  | entry => exact (tracks_argument levels hlevels).entry

theorem Tracks.settles {scan : Scan α} {production : Production α} (h : Tracks source depth scan production)
    (hs : s <:+ source) : ∃ result, Settles scan source (.before source s depth) result :=
  ⟨_, (h s).settles hs⟩

/-- A name settles, whether or not one begins. -/
theorem settles_identifier (hs : s <:+ source) :
    ∃ result, Settles identifier source (.before source s depth) result := by
  by_cases halpha : s.head?.any Char.isAlpha = true
  · cases s with
    | nil => cases halpha
    | cons c r => exact ⟨_, (agrees_identifier halpha .action r).settles hs⟩
  · obtain ⟨e, he⟩ := settles_identifier_of_not_isAlpha depth halpha hs
    exact ⟨_, he⟩

theorem settles_call (hlevels : levels + depth = maxNesting) (hs : s <:+ source) :
    ∃ result, Settles (Scan.call levels) source (.before source s depth) result := by
  by_cases halpha : s.head?.any Char.isAlpha = true
  · cases s with
    | nil => cases halpha
    | cons c r => exact ⟨_, (agrees_call levels hlevels halpha .action r).settles hs⟩
  · obtain ⟨e, he⟩ := settles_identifier_of_not_isAlpha depth halpha hs
    exact ⟨_, he.fail⟩

theorem settles_word (hlevels : levels + depth = maxNesting) (hs : s <:+ source) :
    ∃ result, Settles (Scan.word (inside levels)) source (.before source s depth) result := by
  by_cases halpha : s.head?.any Char.isAlpha = true
  · cases s with
    | nil => cases halpha
    | cons c r => exact ⟨_, (agrees_word (tracksInside levels hlevels) halpha r).settles hs⟩
  · have hoffset : Agrees source depth offset s (.ok (sizeBefore source s, s)) := agrees_offset s
    obtain ⟨_, hoffset⟩ := hoffset hs
    obtain ⟨e, he⟩ := settles_identifier_of_not_isAlpha depth halpha hs
    obtain ⟨head', hscan, hhead⟩ := he.fail
    exact ⟨_, head', (bind_of_ok hoffset).trans hscan, hhead⟩

/-- A string settles, whatever stands in the place of its opening quote. -/
theorem settles_quoted (hs : s <:+ source) :
    ∃ result, Settles quoted source (.before source s depth) result := by
  cases s with
  | nil => exact ⟨_, ((agrees_offset []).step (agrees_bump_nil.step (agrees_quotedFrom hs [] []))).settles hs⟩
  | cons c r =>
    exact ⟨_, ((agrees_offset _).step ((agrees_bump_cons c r).step (agrees_quotedFrom hs [] r))).settles hs⟩

theorem settles_ofPart (hlevels : levels + depth = maxNesting) (part : Part) (hs : s <:+ source) :
    ∃ result, Settles (ofPart levels part) source (.before source s depth) result := by
  cases part with
  | name => exact settles_identifier hs
  | number signed => exact ⟨_, (agrees_numberLiteral signed s).settles hs⟩
  | string => exact settles_quoted hs
  | factor => exact (tracks_factor levels hlevels).settles hs
  | term => exact (tracks_factor levels hlevels).chain.settles hs
  | expression => exact (tracks_expression levels hlevels).settles hs
  | call => exact settles_call hlevels hs
  | word => exact settles_word hlevels hs
  | element e => exact (tracks_ofElement hlevels e).settles hs
  | row e close what => exact (tracks_ofElement hlevels e).row.settles hs
  | passes => exact (tracks_passesOf hlevels).settles hs
  | scheduleBody => exact (tracks_scheduleBody hlevels (tracks_schedule levels hlevels)).settles hs
  | schedule => exact (tracks_schedule levels hlevels).settles hs

end Settled

/-! ## Texts -/

/-- What a scan of a whole text agrees with is what is read of the source. -/
theorem Agrees.settles_inSource {scan : Scan α} {source : String} {read : List Char → Except Complaint α}
    (h : Agrees source.toList 0 scan source.toList ((read source.toList).map fun a => (a, []))) :
    Settles scan source.toList .start (inSource source read) := by
  have hsettles := h.settles (List.suffix_refl _)
  rw [Head.before, sizeBefore_self] at hsettles
  rw [inSource]
  cases hread : read source.toList with
  | ok a =>
    rw [hread] at hsettles
    exact hsettles
  | error c =>
    rw [hread] at hsettles
    exact hsettles

theorem Agrees.isPlaced_of_inSource {scan : Scan α} {source : String} {read : List Char → Except Complaint α}
    (h : Agrees source.toList 0 scan source.toList ((read source.toList).map fun a => (a, []))) {e : SyntaxError}
    (he : inSource source read = .error e) : e.IsPlaced source := by
  rw [inSource] at he
  cases hread : read source.toList with
  | ok a =>
    rw [hread] at he
    cases he
  | error c =>
    rw [hread] at h he
    cases he
    exact Complaint.isPlaced (h (List.suffix_refl _)).1

end Scan

open Scan in
/-- Scanning settles on every text, with the result of reading it, and so does the scan for any part of the grammar from
any boundary in a text and at any depth; a complaint is at its place in the source. -/
theorem parse_settles :
    (∀ source : String,
        Settles program source.toList .start (parseProgram source) ∧
          Settles (Scan.whole (Scan.schedule maxNesting)) source.toList .start (parseSchedule source) ∧
          Settles (Scan.whole (Scan.argument maxNesting)) source.toList .start (parseArgument source)) ∧
      (∀ (source : List Char) (head : Head), head.OnBoundary source →
        (∀ levels, levels + head.depth = maxNesting → ∀ part, ∃ result,
          Settles (ofPart levels part) source head result) ∧
        (head.depth = 0 → ∃ result, Settles Scan.statement source head result)) ∧
      ∀ (source : String) (e : SyntaxError),
        parseProgram source = .error e ∨ parseSchedule source = .error e ∨ parseArgument source = .error e →
        e.IsPlaced source := by
  have hschedule : ∀ source : String, Agrees source.toList 0 _ source.toList _ :=
    fun source => agrees_whole (tracks_schedule maxNesting rfl) source.toList
  have hargument : ∀ source : String, Agrees source.toList 0 _ source.toList _ :=
    fun source => agrees_whole (tracks_argument maxNesting rfl) source.toList
  refine ⟨?_, ?_, ?_⟩
  · intro source
    exact ⟨(agrees_program source.toList).settles_inSource, (hschedule source).settles_inSource,
      (hargument source).settles_inSource⟩
  · intro source head hhead
    obtain ⟨s, hs, hbefore⟩ := hhead.exists_before
    rw [hbefore]
    constructor
    · intro levels hlevels part
      exact settles_ofPart hlevels part hs
    · intro hdepth
      have hstatement : ∃ result, Settles Scan.statement source (.before source s 0) result :=
        tracks_statement.settles hs
      rw [← hdepth] at hstatement
      exact hstatement
  · rintro source e (he | he | he)
    · exact (agrees_program source.toList).isPlaced_of_inSource he
    · exact (hschedule source).isPlaced_of_inSource he
    · exact (hargument source).isPlaced_of_inSource he

open Scan in
/-- The quote behind a line feed and a wide blank is never closed. -/
theorem parse_settles_unterminated :
    (Head.mk 4 255).OnBoundary ['\n', '\u3000', '"', 'é'] ∧
      (∃ result, Settles (ofPart 1 (.element .argument)) ['\n', '\u3000', '"', 'é'] ⟨4, 255⟩ result) ∧
      parseArgument "\n\u3000\"é" = .error ⟨"unterminated string literal", ⟨4, 2, 2⟩⟩ ∧
      SyntaxError.IsPlaced "\n\u3000\"é" ⟨"unterminated string literal", ⟨4, 2, 2⟩⟩ := by
  have hboundary : (Head.mk 4 255).OnBoundary ['\n', '\u3000', '"', 'é'] :=
    ⟨['\n', '\u3000'], ['"', 'é'], rfl, rfl⟩
  have hread : Cadence.whole (Cadence.argument maxNesting) ['\n', '\u3000', '"', 'é']
      = .error ⟨.unterminatedString, ['"', 'é']⟩ := by
    have hskip : Cadence.skipBlanks ['\n', '\u3000', '"', 'é'] = ['"', 'é'] := by decide
    rw [Cadence.whole, hskip, argument_eq]
    rfl
  have hparse : parseArgument "\n\u3000\"é" = .error ⟨"unterminated string literal", ⟨4, 2, 2⟩⟩ := by
    have htext : "\n\u3000\"é".toList = ['\n', '\u3000', '"', 'é'] := by decide
    rw [parseArgument, inSource, htext, hread]
    rfl
  exact ⟨hboundary, (parse_settles.2.1 _ _ hboundary).1 1 rfl (.element .argument), hparse,
    parse_settles.2.2 _ _ (.inr (.inr hparse))⟩

end Cadence
