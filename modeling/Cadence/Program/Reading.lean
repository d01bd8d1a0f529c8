import Cadence.Program.Basic
import Cadence.Program.Complaint
import Cadence.Text.Blank
import Cadence.Text.Quoted
import Cadence.Binary64.Numeral

/-!
# Reading from the front of a text

A `Production` reads something from the front of a text and gives it with what follows, a shorter text, or else
complains. The productions of this module are the small ones (marks, names, number literals) and the two ways to
repeat a production: rows set apart by commas (`delimited`) and chains of operators (`chain`). A row or chain ends
because each repetition takes at least a comma or an operator from the text.
-/

namespace Cadence

/-- Something read, and what follows it: a text shorter than `bound`. -/
structure Reading (α : Type) (bound : Nat) where
  value : α
  rest : List Char
  rest_lt : rest.length < bound

/-- Reads from the front of a text something that is not empty. -/
abbrev Production (α : Type) := (s : List Char) → Except Complaint (Reading α s.length)

/-- Complains about the text at hand. -/
def complain {α : Type} (fault : Fault) (s : List Char) : Except Complaint α :=
  .error ⟨fault, s⟩

/-- Reads one given character. -/
def mark (c : Char) (what : Expectation) : Production Unit
  | [] => complain (.expected what) []
  | d :: r => if d = c then .ok ⟨(), r, by simp⟩ else complain (.expected what) (d :: r)

/-- Whether a character may follow the first letter of a name. -/
def isNamePart (c : Char) : Bool :=
  c.isAlphanum || c == '_'

theorem length_dropWhile_lt (p : Char → Bool) (c : Char) (r : List Char) :
    (r.dropWhile p).length < (c :: r).length :=
  Nat.lt_succ_of_le (List.dropWhile_suffix p).length_le

/-- Reads a name: a letter, then letters, digits and low lines. -/
def name (what : Expectation) : Production (List Char)
  | [] => complain (.expected what) []
  | c :: r =>
    if c.isAlpha then
      .ok ⟨c :: r.takeWhile isNamePart, r.dropWhile isNamePart, length_dropWhile_lt isNamePart c r⟩
    else complain (.expected what) (c :: r)

/-- Reads a number literal, with a sign in front if `signed`. -/
def numberLiteral (signed : Bool) : Production Number := fun s =>
  let negative := (Numeral.scanSignIf signed s).1
  let unsigned := (Numeral.scanSignIf signed s).2
  let n := (Numeral.scan unsigned).1
  let rest := (Numeral.scan unsigned).2
  if n.whole.isEmpty && n.fraction.isNone then complain (.expected .number) unsigned
  else if h : n.hasDigits = true then
    have rest_lt : rest.length < s.length :=
      Nat.lt_of_lt_of_le (Numeral.length_scan_lt h) (Numeral.length_scanSignIf_le signed s)
    if n.isInteger then
      match fitInt64 (if negative then -n.toNat else n.toNat) with
      | some i => .ok ⟨.int i, rest, rest_lt⟩
      | none => complain (.integerOutOfRange (textBefore s rest)) s
    else if (n.toBinary64 negative).isFinite then .ok ⟨.float (n.toBinary64 negative), rest, rest_lt⟩
    else complain (.numberOutOfRange (textBefore s rest)) s
  else complain .noDigits s

/-- Reads what follows an opening bracket: one or more of `element`, set apart by commas, and the closing
bracket. -/
def elements {α : Type} (element : Production α) (close : Char) (what : Expectation) :
    Production (List α) := fun s => do
  let first ← element (skipBlanks s)
  have first_lt : first.rest.length < s.length := Nat.lt_of_lt_of_le first.rest_lt (length_skipBlanks_le s)
  match h : skipBlanks first.rest with
  | [] => complain (.expected what) []
  | c :: r =>
    have r_lt : r.length < s.length := by
      have := length_skipBlanks_le first.rest
      simp [h] at this
      omega
    if c = ',' then do
      let others ← elements element close what r
      return ⟨first.value :: others.value, others.rest, Nat.lt_trans others.rest_lt r_lt⟩
    else if c = close then return ⟨[first.value], r, r_lt⟩
    else complain (.expected what) (c :: r)
termination_by s => s.length

/-- Reads what follows an opening bracket: any number of `element`, set apart by commas, and the closing bracket. -/
def delimited {α : Type} (element : Production α) (close : Char) (what : Expectation) :
    Production (List α) := fun s =>
  match h : skipBlanks s with
  | c :: r =>
    if c = close then
      .ok ⟨[], r, by have := length_skipBlanks_le s; simp [h] at this; omega⟩
    else elements element close what s
  | [] => elements element close what s

/-- Reads the operators and operands that follow the first operand of a chain, which is worth `value` so far. The
operation at fault is the one whose operator stands at the front of the complaint's text. -/
def chainFrom (operator? : Char → Option Operator) (operand : Production Number) (value : Number) (s : List Char) :
    Except Complaint (Reading Number (s.length + 1)) :=
  match h : skipBlanks s with
  | [] => .ok ⟨value, [], by simp⟩
  | c :: r =>
    have r_lt : r.length < s.length := by
      have := length_skipBlanks_le s
      simp [h] at this
      omega
    match operator? c with
    | none => .ok ⟨value, c :: r, by simp; omega⟩
    | some op => do
      let right ← operand (skipBlanks r)
      have right_lt : right.rest.length < s.length := by
        have := right.rest_lt
        have := length_skipBlanks_le r
        omega
      match value.apply op right.value with
      | .error fault => complain (.arithmetic fault) (c :: r)
      | .ok result => do
        let all ← chainFrom operator? operand result right.rest
        return ⟨all.value, all.rest, Nat.lt_trans all.rest_lt (by omega)⟩
termination_by s.length

/-- Reads operands with operators between them, and works them out from left to right. -/
def chain (operator? : Char → Option Operator) (operand : Production Number) : Production Number := fun s => do
  let first ← operand s
  let all ← chainFrom operator? operand first.value first.rest
  return ⟨all.value, all.rest, by have := all.rest_lt; have := first.rest_lt; omega⟩

end Cadence
