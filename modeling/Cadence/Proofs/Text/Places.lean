import Cadence.Proofs.Program.Agreement
import Mathlib.Data.Prod.Lex

/-!
# Lines and columns

A line and a column, the line deciding first, tell the places of a text apart and stand in the order of their offsets.
The key fact is that every further character leads to a greater pair (`Place.lineColumn_lt_next`): a line feed to a
greater line, and any other character to a greater column of the same line. So a place behind more text has a greater
pair (`Place.lineColumn_lt_after_append`), and the offsets of characters are those of the places behind a front part of
the text (`Place.exists_front`).
-/

namespace Cadence

open String (utf8Len)

namespace Place

/-- The line and the column of a place, in the order of lines first. -/
def lineColumn (p : Place) : Nat ×ₗ Nat :=
  toLex (p.line, p.column)

/-- Behind a character, the line or the column is greater. -/
theorem lineColumn_lt_next (p : Place) (c : Char) : p.lineColumn < (p.next c).lineColumn := by
  unfold lineColumn next
  rw [Prod.Lex.toLex_lt_toLex]
  by_cases hc : c = '\n'
  · rw [if_pos hc]
    exact .inl (Nat.lt_succ_self p.line)
  · rw [if_neg hc]
    exact .inr ⟨rfl, Nat.lt_succ_self p.column⟩

theorem lineColumn_le_foldl (p : Place) (s : List Char) : p.lineColumn ≤ (s.foldl next p).lineColumn := by
  induction s generalizing p with
  | nil => exact le_refl _
  | cons c s ih => exact (p.lineColumn_lt_next c).le.trans (ih (p.next c))

theorem after_append (before more : List Char) : after (before ++ more) = more.foldl next (after before) :=
  List.foldl_append

theorem lineColumn_lt_after_append {before more : List Char} (h : more ≠ []) :
    (after before).lineColumn < (after (before ++ more)).lineColumn := by
  obtain ⟨c, s, rfl⟩ := List.exists_cons_of_ne_nil h
  rw [after_append]
  exact ((after before).lineColumn_lt_next c).trans_le (lineColumn_le_foldl _ s)

/-! ## Offsets -/

/-- An offset at which a character or the end of the text stands has a front part of the text before it. -/
theorem exists_front {source : String} {i : Nat} (h : String.Pos.Raw.IsValid source ⟨i⟩) :
    ∃ before, before <+: source.toList ∧ utf8Len before = i ∧ ofOffset source.toList i = after before := by
  obtain ⟨front, rest, hsource, hi⟩ := String.Pos.Raw.isValid_iff_exists_append.1 h
  have hlist : source.toList = front.toList ++ rest.toList := by rw [hsource, String.toList_append]
  have hsize : utf8Len front.toList = i := by
    rw [String.utf8Len_toList]
    exact (congrArg String.Pos.Raw.byteIdx hi).symm
  refine ⟨front.toList, ⟨rest.toList, hlist.symm⟩, hsize, ?_⟩
  rw [ofOffset, hlist, ← hsize, frontOfSize_append]

theorem frontOfSize_of_le {source : List Char} {offset : Nat} (h : utf8Len source ≤ offset) :
    frontOfSize offset source = source := by
  induction source generalizing offset with
  | nil => rw [frontOfSize]
  | cons c s ih =>
    rw [String.utf8Len_cons] at h
    rw [frontOfSize, if_pos (by omega), ih (by omega)]

/-- Of two front parts of a text, the one with fewer bytes has the smaller line and column behind it. -/
theorem lineColumn_after_lt {source before before' : List Char} (h : before <+: source) (h' : before' <+: source)
    (hlt : utf8Len before < utf8Len before') : (after before).lineColumn < (after before').lineColumn := by
  rcases List.prefix_or_prefix_of_prefix h h' with ⟨more, rfl⟩ | ⟨more, rfl⟩
  · refine lineColumn_lt_after_append ?_
    rintro rfl
    rw [List.append_nil] at hlt
    exact Nat.lt_irrefl _ hlt
  · rw [String.utf8Len_append] at hlt
    omega

/-- Lines and columns stand in the order of the offsets. -/
theorem strictMonoOn_lineColumn (source : String) :
    StrictMonoOn (fun i => (ofOffset source.toList i).lineColumn) {i | String.Pos.Raw.IsValid source ⟨i⟩} := by
  intro i hi j hj hlt
  obtain ⟨before, hfront, rfl, hplace⟩ := exists_front hi
  obtain ⟨before', hfront', rfl, hplace'⟩ := exists_front hj
  dsimp only
  rw [hplace, hplace']
  exact lineColumn_after_lt hfront hfront' hlt

/-- The line and the column of an offset pin it down: for offsets of characters of a text, or of its end, they are in
the order of the offsets, and the same only for the same offset. They say how many line feeds stand before it and how
many characters behind the last of these. An offset beyond the end has those of the end. -/
theorem lineColumn_lt_iff {source : String} {i j : Nat} (hi : String.Pos.Raw.IsValid source ⟨i⟩)
    (hj : String.Pos.Raw.IsValid source ⟨j⟩) :
    ((ofOffset source.toList i).lineColumn < (ofOffset source.toList j).lineColumn ↔ i < j) ∧
      ((ofOffset source.toList i).lineColumn = (ofOffset source.toList j).lineColumn ↔ i = j) ∧
      (∃ before, before <+: source.toList ∧ utf8Len before = i ∧ ofOffset source.toList i
        = ⟨i, before.count '\n' + 1, (before.reverse.takeWhile (· ≠ '\n')).length + 1⟩) ∧
      ∀ offset, source.utf8ByteSize ≤ offset →
        ofOffset source.toList offset = ofOffset source.toList source.utf8ByteSize := by
  have hmono := strictMonoOn_lineColumn source
  refine ⟨hmono.lt_iff_lt hi hj, hmono.eq_iff_eq hi hj, ?_, fun offset h => ?_⟩
  · obtain ⟨before, hfront, hsize, hplace⟩ := exists_front hi
    refine ⟨before, hfront, hsize, ?_⟩
    rw [hplace, after_eq, hsize]
  · rw [← String.utf8Len_toList] at h ⊢
    rw [ofOffset, ofOffset, frontOfSize_of_le h, frontOfSize_of_le (Nat.le_refl _)]

/-- In a text of two-byte and three-byte characters, a carriage return and two line feeds in a row, the places of the
second line feed and of the last character. -/
theorem lineColumn_lt_iff_lines :
    String.Pos.Raw.IsValid "é\r\n\n€x" ⟨4⟩ ∧ String.Pos.Raw.IsValid "é\r\n\n€x" ⟨8⟩ ∧
      (ofOffset "é\r\n\n€x".toList 4).lineColumn < (ofOffset "é\r\n\n€x".toList 8).lineColumn ∧
      (ofOffset "é\r\n\n€x".toList 4).lineColumn = toLex (2, 1) ∧
      (ofOffset "é\r\n\n€x".toList 8).lineColumn = toLex (3, 2) := by
  have hfour : String.Pos.Raw.IsValid "é\r\n\n€x" ⟨4⟩ :=
    String.Pos.Raw.isValid_iff_exists_append.2 ⟨"é\r\n", "\n€x", by decide, by decide⟩
  have height : String.Pos.Raw.IsValid "é\r\n\n€x" ⟨8⟩ :=
    String.Pos.Raw.isValid_iff_exists_append.2 ⟨"é\r\n\n€", "x", by decide, by decide⟩
  exact ⟨hfour, height, (lineColumn_lt_iff hfour height).1.2 (by decide), by decide, by decide⟩

end Place

end Cadence
