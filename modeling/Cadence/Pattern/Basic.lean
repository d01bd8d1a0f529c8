import Cadence.Text.Blank

/-!
# Modes and escapes of patterns

A pattern is a regular expression. Its mode says how its characters are understood; letters in a group change it. What
a backslash stands for depends on the mode: no tables of Unicode are at hand, so that the classes of digits, blanks
and word characters, and the ends of words, are there in ASCII mode only.
-/

namespace Cadence.Pattern

/-- How the characters of a pattern are understood. -/
structure Mode where
  /-- Capital and small letters are the same. -/
  ignoreCase : Bool
  /-- Classes hold characters of ASCII only. -/
  ascii : Bool
  /-- Blanks and remarks between the parts do not count. -/
  spaced : Bool
deriving DecidableEq, Repr

namespace Mode

/-- The mode at the front of a pattern. -/
def initial : Mode :=
  ⟨false, false, false⟩

/-- The letters for modes. Four of them make no difference to which patterns are supported. -/
def letters : List Char :=
  ['i', 'm', 's', 'u', 'U', 'R', 'x']

/-- Whether letters for modes are well formed: each stands there once, and letters stand behind the hyphen, if there
is one. -/
def areLetters (s : List Char) : Bool :=
  s.all ('-' :: letters).contains && decide s.Nodup && s.getLast? != some '-'

/-- Sets or clears a property of a mode, by its letter. -/
def switch (s : List Char) (letter : Char) (old : Bool) : Bool :=
  if (s.takeWhile (· != '-')).contains letter then true
  else if s.contains letter then false
  else old

/-- The mode after a change by letters; those behind a hyphen are switched off. -/
def change? (mode : Mode) (s : List Char) : Option Mode :=
  if areLetters s then
    some ⟨switch s 'i' mode.ignoreCase, !switch s 'u' (!mode.ascii), switch s 'x' mode.spaced⟩
  else none

/-- Whether characters can be matched in a mode. To ignore the case of letters takes a table, outside ASCII. -/
def canMatch (mode : Mode) : Bool :=
  mode.ascii || !mode.ignoreCase

end Mode

/-- A text without the blanks and remarks at its front. A remark goes from `#` to the end of the line; `inside` tells
whether the text begins inside one. -/
def skipRemarks (inside : Bool) : List Char → List Char
  | [] => []
  | c :: r =>
    if inside then skipRemarks (c != '\n') r
    else if c = '#' then skipRemarks true r
    else if isBlank c then skipRemarks false r
    else c :: r

/-- A text without what does not count at its front. -/
def Mode.skip (mode : Mode) (s : List Char) : List Char :=
  if mode.spaced then skipRemarks false s else s

/-! ## Escapes -/

/-- What a backslash and the characters behind it stand for. -/
inductive Escape
  | character (c : Char)
  | charClass
  /-- A place between characters. -/
  | place
deriving DecidableEq

/-- The worth of a hexadecimal digit. -/
def hexDigit? (c : Char) : Option Nat :=
  if c.isDigit then some (c.toNat - 0x30)
  else if 'a' ≤ c && c ≤ 'f' then some (c.toNat - 0x61 + 10)
  else if 'A' ≤ c && c ≤ 'F' then some (c.toNat - 0x41 + 10)
  else none

/-- The character with a code of so many hexadecimal digits at the front of a text, and what follows. -/
def readCode? (length : Nat) (s : List Char) : Option (Char × List Char) := do
  let digits ← (s.take length).mapM hexDigit?
  let code := digits.foldl (16 * · + ·) 0
  if digits.length = length ∧ code.isValidChar then some (Char.ofNat code, s.drop length) else none

/-- The letters for control characters. -/
def controlLetters : List (Char × Char) :=
  [('a', '\x07'), ('f', '\x0c'), ('n', '\n'), ('r', '\r'), ('t', '\t'), ('v', '\x0b')]

/-- Reads what stands behind a backslash. Every mark of ASCII stands for itself there. -/
def readEscape? (mode : Mode) : List Char → Option (Escape × List Char)
  | [] => none
  | c :: r =>
    if c = 'x' then
      (readCode? 2 r).bind fun (d, rest) =>
        if mode.ascii && 0x80 ≤ d.toNat then none else some (.character d, rest)
    else if c = 'u' then (readCode? 4 r).map fun (d, rest) => (.character d, rest)
    else if c = 'U' then (readCode? 8 r).map fun (d, rest) => (.character d, rest)
    else if c = 'A' || c = 'z' then some (.place, r)
    else if ['b', 'B', '<', '>'].contains c then if mode.ascii then some (.place, r) else none
    else if ['d', 's', 'w'].contains c then if mode.ascii then some (.charClass, r) else none
    else match controlLetters.lookup c with
      | some d => some (.character d, r)
      | none => if c.toNat < 0x80 && !c.isAlphanum then some (.character c, r) else none

example : readEscape? .initial ['x', '4', '1', 'z'] = some (.character 'A', ['z']) := by decide
example : readEscape? .initial ['u', 'd', '8', '0', '0'] = none := by decide
example : readEscape? .initial ['d'] = none := by decide

end Cadence.Pattern
