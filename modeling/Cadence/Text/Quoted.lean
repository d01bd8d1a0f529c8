/-!
# Quoted strings

A string stands in a program between double quotes. Four characters are written as a backslash and a letter or
mark: the quote, the backslash, the line feed and the tab; all others stand for themselves. On reading, a
backslash before any other character is kept together with that character.
-/

namespace Cadence.Quoted

/-- A character as it is written between quotes. -/
def escape (c : Char) : List Char :=
  if c = '"' then ['\\', '"']
  else if c = '\\' then ['\\', '\\']
  else if c = '\n' then ['\\', 'n']
  else if c = '\t' then ['\\', 't']
  else [c]

/-- The characters that a backslash and `c` stand for. -/
def unescape (c : Char) : List Char :=
  if c = 'n' then ['\n']
  else if c = 't' then ['\t']
  else if c = '"' then ['"']
  else if c = '\\' then ['\\']
  else ['\\', c]

/-- A text between quotes. -/
def encode (s : List Char) : List Char :=
  '"' :: s.flatMap escape ++ ['"']

/-- Reads up to the closing quote what follows an opening one: the text meant, and what stands behind the quote.
There is none if no quote closes the string. -/
def decode : List Char → Option (List Char × List Char)
  | [] => none
  | '"' :: r => some ([], r)
  | ['\\'] => none
  | '\\' :: c :: r => (decode r).map fun found => (unescape c ++ found.1, found.2)
  | c :: r => (decode r).map fun found => (c :: found.1, found.2)

theorem length_lt_of_decode {s t r : List Char} (h : decode s = some (t, r)) : r.length < s.length := by
  fun_induction decode s generalizing t r with
  | case1 => simp at h
  | case2 q => simp at h; simp [← h.2]
  | case3 => simp at h
  | case4 c q ih =>
    obtain ⟨found, hf, he⟩ := Option.map_eq_some_iff.1 h
    have := ih hf
    simp only [Prod.mk.injEq] at he
    simp [← he.2]
    omega
  | case5 c q _ _ _ ih =>
    obtain ⟨found, hf, he⟩ := Option.map_eq_some_iff.1 h
    have := ih hf
    simp only [Prod.mk.injEq] at he
    simp [← he.2]
    omega

/-- Reading undoes writing, whatever follows. -/
theorem decode_encode (s r : List Char) : decode ((s.flatMap escape ++ ['"']) ++ r) = some (s, r) := by
  induction s with
  | nil => simp [decode]
  | cons c s ih =>
    rw [List.append_assoc, List.singleton_append] at ih
    by_cases h1 : c = '"'
    · subst h1; simp [escape, decode, unescape, ih]
    · by_cases h2 : c = '\\'
      · subst h2; simp [escape, decode, unescape, ih]
      · by_cases h3 : c = '\n'
        · subst h3; simp [escape, decode, unescape, ih]
        · by_cases h4 : c = '\t'
          · subst h4; simp [escape, decode, unescape, ih]
          · simp [escape, h1, h2, h3, h4, decode, ih]

end Cadence.Quoted
