import Cadence.Number
import Cadence.Proofs.Binary64.Whole

/-!
# Expressions and their worth

The tree of an expression, and what it is worth by the rules of arithmetic, with nothing said about how it is read. Sums
and products of integers are exact, and everything else is worked out in binary64 numbers (`Operator.result`); that is
what the operations on literals do (`Operator.result_eq_apply`). The operations of a tree stand in the order in which
they are worked out (`Expression.operations`). Working out the whole tree comes to the fault of the first one that has no
result, or else to its value (`Expression.outcome_cases`), and an integer is the exact value of the tree
(`Expression.integer?_of_value?`).
-/

namespace Cadence

/-! ## Operations -/

/-- An exact integer, if it has 64 bits. -/
def Number.ofExact (n : Int) : Except ArithmeticFault Number :=
  if -9223372036854775808 ≤ n ∧ n < 9223372036854775808 then .ok (.int (Int64.ofInt n)) else .error .overflow

/-- A binary64 number, if it is finite. -/
def Number.ofRounded (x : Binary64) : Except ArithmeticFault Number :=
  if x.isFinite then .ok (.float x) else .error .notFinite

def Number.isZero : Number → Bool
  | .int i => i == 0
  | .float x => x.equals .zero

/-- What an operation gives. Integers are added, subtracted and multiplied exactly; all else is done in binary64
numbers. -/
def Operator.result : Operator → Number → Number → Except ArithmeticFault Number
  | .plus, .int i, .int j => Number.ofExact (i.toInt + j.toInt)
  | .plus, a, b => Number.ofRounded (a.toBinary64.add b.toBinary64)
  | .minus, .int i, .int j => Number.ofExact (i.toInt - j.toInt)
  | .minus, a, b => Number.ofRounded (a.toBinary64.sub b.toBinary64)
  | .times, .int i, .int j => Number.ofExact (i.toInt * j.toInt)
  | .times, a, b => Number.ofRounded (a.toBinary64.mul b.toBinary64)
  | .dividedBy, a, b => if b.isZero then .error .divisionByZero else Number.ofRounded (a.toBinary64.div b.toBinary64)

theorem Number.isZero_eq (n : Number) : n.isZero = n.toBinary64.equals .zero := by
  cases n with
  | int i =>
    have hmin := i.le_toInt
    have hmax := i.toInt_lt
    have hsize : i.toInt.natAbs ≤ UInt64.size := by
      show i.toInt.natAbs ≤ 18446744073709551616
      omega
    rw [Bool.eq_iff_iff, toBinary64, Binary64.equals_zero_ofInt hsize, isZero, beq_iff_eq, ← Int64.toInt_inj]
    rfl
  | float x => rfl

theorem Number.ofExact_eq (n : Int) : ofExact n = match fitInt64 n with
    | some k => .ok (.int k)
    | none => .error .overflow := by
  have hmin : Int64.minValue.toInt = -9223372036854775808 := by decide
  have hmax : Int64.maxValue.toInt = 9223372036854775807 := by decide
  rw [ofExact, fitInt64, hmin, hmax]
  by_cases h : -9223372036854775808 ≤ n ∧ n < 9223372036854775808
  · rw [if_pos h, if_pos (by omega)]
  · rw [if_neg h, if_neg (by omega)]

/-- The operations on literals are those of arithmetic. -/
theorem Operator.result_eq_apply (op : Operator) (a b : Number) : op.result a b = a.apply op b := by
  cases op with
  | dividedBy =>
    rw [result, Number.isZero_eq, Number.apply]
    cases hzero : b.toBinary64.equals .zero with
    | true => rw [if_pos rfl, if_pos ⟨rfl, rfl⟩]
    | false =>
      rw [if_neg Bool.false_ne_true, if_neg (fun h => Bool.false_ne_true h.2)]
      cases a <;> cases b <;> rfl
  | plus | minus | times =>
    rw [Number.apply, if_neg (fun h => nomatch h.1)]
    cases a <;> cases b <;> first | rfl | exact Number.ofExact_eq _

/-! ## Trees -/

/-- The tree of an expression. An operation comes with the text from its operator on, which says where the operator
stands. -/
inductive Expression
  | number (value : Number)
  | operation (left : Expression) (op : Operator) (rest : List Char) (right : Expression)

namespace Expression

/-- The value of an expression, if all of its operations have results. -/
def value? : Expression → Option Number
  | number n => some n
  | operation left op _ right => do
    let a ← left.value?
    let b ← right.value?
    (op.result a b).toOption

/-- The exact value of an expression of integers without divisions. -/
def integer? : Expression → Option Int
  | number (.int i) => some i.toInt
  | number (.float _) => none
  | operation left op _ right => do
    let i ← left.integer?
    let j ← right.integer?
    Number.inIntegers? i j op

/-- The operations of an expression in the order in which they are worked out: those of the left operand, those of the
right one, and the operation itself. -/
def operations : Expression → List Expression
  | number _ => []
  | operation left op rest right => left.operations ++ right.operations ++ [operation left op rest right]

/-- Why an operation has no result, while its operands have values, and the text from its operator on. -/
def fault? : Expression → Option (ArithmeticFault × List Char)
  | number _ => none
  | operation left op rest right =>
    match left.value?, right.value? with
    | some a, some b =>
      match op.result a b with
      | .ok _ => none
      | .error fault => some (fault, rest)
    | _, _ => none

/-- Works out an expression: its left operand, its right operand, and then the operation. -/
def outcome : Expression → Except (ArithmeticFault × List Char) Number
  | number n => .ok n
  | operation left op rest right => do
    let a ← left.outcome
    let b ← right.outcome
    (op.result a b).mapError fun fault => (fault, rest)

section Operands

variable {left right : Expression} {op : Operator} {rest : List Char} {a b : Number}

theorem outcome_operation (hleft : left.outcome = .ok a) (hright : right.outcome = .ok b) :
    (operation left op rest right).outcome = (op.result a b).mapError fun fault => (fault, rest) := by
  rw [outcome, hleft, hright]
  rfl

theorem value?_operation (hleft : left.value? = some a) (hright : right.value? = some b) :
    (operation left op rest right).value? = (op.result a b).toOption := by
  rw [value?, hleft, hright]
  rfl

theorem value?_operation_eq_some_iff {n : Number} : (operation left op rest right).value? = some n ↔
    ∃ a b, left.value? = some a ∧ right.value? = some b ∧ op.result a b = .ok n := by
  have hok : ∀ {result : Except ArithmeticFault Number}, result.toOption = some n ↔ result = .ok n := by
    rintro (fault | m)
    · exact ⟨(nomatch ·), (nomatch ·)⟩
    · exact ⟨fun h => congrArg _ (Option.some.inj h), fun h => congrArg _ (Except.ok.inj h)⟩
  constructor
  · intro h
    obtain ⟨a, ha, h⟩ := Option.bind_eq_some_iff.1 h
    obtain ⟨b, hb, h⟩ := Option.bind_eq_some_iff.1 h
    exact ⟨a, b, ha, hb, hok.1 h⟩
  · rintro ⟨a, b, ha, hb, h⟩
    rw [value?_operation ha hb]
    exact hok.2 h

theorem fault?_of_ok {v : Number} (hleft : left.value? = some a) (hright : right.value? = some b)
    (h : op.result a b = .ok v) : (operation left op rest right).fault? = none := by
  simp only [fault?, hleft, hright, h]

theorem fault?_of_error {fault : ArithmeticFault} (hleft : left.value? = some a) (hright : right.value? = some b)
    (h : op.result a b = .error fault) : (operation left op rest right).fault? = some (fault, rest) := by
  simp only [fault?, hleft, hright, h]

end Operands

/-- The first operation at fault, if there is one, and why it has no result. -/
def firstFault? (e : Expression) : Option (ArithmeticFault × List Char) :=
  e.operations.findSome? fault?

theorem firstFault?_operation (left : Expression) (op : Operator) (rest : List Char) (right : Expression) :
    (operation left op rest right).firstFault?
      = (left.firstFault?.or right.firstFault?).or (operation left op rest right).fault? := by
  simp only [firstFault?, operations, List.findSome?_append, List.findSome?_singleton]

/-- Working out an expression comes to its value, if no operation is at fault, or else to the first fault. -/
theorem outcome_cases (e : Expression) :
    (∃ v, e.outcome = .ok v ∧ e.value? = some v ∧ e.firstFault? = none) ∨
      ∃ c, e.outcome = .error c ∧ e.value? = none ∧ e.firstFault? = some c := by
  induction e with
  | number n => exact .inl ⟨n, rfl, rfl, rfl⟩
  | operation left op rest right hleft hright =>
    rw [firstFault?_operation]
    rcases hleft with ⟨a, hleft, ha, hnone⟩ | ⟨c, hleft, ha, hsome⟩
    · rcases hright with ⟨b, hright, hb, hnone'⟩ | ⟨c, hright, hb, hsome⟩
      · rw [outcome_operation hleft hright, value?_operation ha hb, hnone, hnone', Option.none_or, Option.none_or]
        cases hresult : op.result a b with
        | ok v => exact .inl ⟨v, rfl, rfl, fault?_of_ok ha hb hresult⟩
        | error fault => exact .inr ⟨(fault, rest), rfl, rfl, fault?_of_error ha hb hresult⟩
      · -- the operation is not worked out, so it is not at fault
        refine .inr ⟨c, ?_, ?_, ?_⟩
        · rw [outcome, hleft, hright]
          rfl
        · rw [value?, ha, hb]
          rfl
        · rw [hnone, hsome, Option.none_or, Option.some_or]
    · refine .inr ⟨c, ?_, ?_, ?_⟩
      · rw [outcome, hleft]
        rfl
      · rw [value?, ha]
        rfl
      · rw [hsome, Option.some_or, Option.some_or]

end Expression

theorem Number.toInt_of_ofExact {n : Int} {k : Int64} (h : ofExact n = .ok (.int k)) : k.toInt = n := by
  unfold ofExact at h
  split at h
  · next hrange =>
    cases h
    exact Int64.toInt_ofInt_of_le hrange.1 hrange.2
  · cases h

theorem Number.ofRounded_ne_int (x : Binary64) (k : Int64) : ofRounded x ≠ .ok (.int k) := by
  unfold ofRounded
  intro h
  split at h <;> cases h

/-- Only an operation on two integers gives an integer, and it is the exact one. -/
theorem Operator.inIntegers?_of_result {op : Operator} {a b : Number} {k : Int64} (h : op.result a b = .ok (.int k)) :
    ∃ i j, a = .int i ∧ b = .int j ∧ Number.inIntegers? i.toInt j.toInt op = some k.toInt := by
  cases op with
  | dividedBy =>
    rw [result] at h
    split at h
    · cases h
    · exact absurd h (Number.ofRounded_ne_int _ _)
  | plus | minus | times =>
    cases a with
    | float x => exact absurd h (Number.ofRounded_ne_int _ _)
    | int i =>
      cases b with
      | float y => exact absurd h (Number.ofRounded_ne_int _ _)
      | int j => exact ⟨i, j, rfl, rfl, congrArg some (Number.toInt_of_ofExact h).symm⟩

/-- An integer is the exact value of its expression. -/
theorem Expression.integer?_of_value? {e : Expression} {k : Int64} (h : e.value? = some (.int k)) :
    e.integer? = some k.toInt := by
  induction e generalizing k with
  | number n =>
    cases h
    rfl
  | operation left op rest right hleft hright =>
    obtain ⟨a, b, ha, hb, hresult⟩ := value?_operation_eq_some_iff.1 h
    obtain ⟨i, j, rfl, rfl, hexact⟩ := op.inIntegers?_of_result hresult
    rw [integer?, hleft ha, hright hb]
    exact hexact

end Cadence
