/-!
# Places in a text

A place is given by its offset in bytes of UTF-8, its line and its column; lines and columns count from one, a
column is counted in characters, and only a line feed ends a line. The place after a text is found by walking it
(`Place.after`), so it is `Place.start` for the empty text and `Place.next` of the place before for every
further character.
-/

namespace Cadence

/-- The part of a text in front of its last part `rest`. -/
def textBefore (source rest : List Char) : List Char :=
  source.take (source.length - rest.length)

structure Place where
  /-- Bytes of UTF-8 before the place. -/
  offset : Nat
  /-- Number of the line, from one. -/
  line : Nat
  /-- Number of the character in its line, from one. -/
  column : Nat
deriving DecidableEq, Repr

namespace Place

/-- The place of a text's first character. -/
def start : Place := ⟨0, 1, 1⟩

/-- The place behind a character that stands at `p`. -/
def next (p : Place) (c : Char) : Place :=
  if c = '\n' then ⟨p.offset + c.utf8Size, p.line + 1, 1⟩ else ⟨p.offset + c.utf8Size, p.line, p.column + 1⟩

/-- The place behind a text. -/
def after (before : List Char) : Place :=
  before.foldl next start

@[simp] theorem after_concat (s : List Char) (c : Char) : after (s ++ [c]) = (after s).next c := by
  simp [after]

/-- The longest front part of a text that takes at most `size` bytes. -/
def frontOfSize : Nat → List Char → List Char
  | _, [] => []
  | size, c :: s => if c.utf8Size ≤ size then c :: frontOfSize (size - c.utf8Size) s else []

/-- The place in `source` at a byte offset; an offset beyond the end stands for the end. -/
def ofOffset (source : List Char) (offset : Nat) : Place :=
  after (frontOfSize offset source)

/-- The place in `source` where the text `rest`, its last part, begins. -/
def ofRest (source rest : List Char) : Place :=
  after (textBefore source rest)

end Place

/-- A complaint about a text, with the place it is about. -/
structure SyntaxError where
  detail : String
  place : Place
deriving DecidableEq, Repr

/-- The complaint with its line and column. -/
def SyntaxError.message (e : SyntaxError) : String :=
  e.detail ++ " at line " ++ toString e.place.line ++ ", column " ++ toString e.place.column

end Cadence
