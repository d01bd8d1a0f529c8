import Cadence.Program.Json
import Cadence.Proofs.Cli.Sessions
import Cadence.Proofs.Json.Layouts
import Cadence.Proofs.Program.Proper

/-!
# Programs can be told from their JSON texts

The JSON value of a program shows all of its tree: no two programs have the same one (`Statements.toJson_inj`). If the
numbers of a program are finite then so are those of the value (`Statements.isFinite_toJson`), so that it can be told
from its text. So `check` prints different lines for different programs (`Statements.jsonText_ne`).
-/

namespace Cadence

/-! ## The number literals of a program -/

def Literal.numbers : Literal → List Number
  | .number n => [n]
  | .string _ => []
  | .boolean _ => []

mutual

/-- The number literals in an argument, in the order in which they are written. -/
def Argument.numbers : Argument → List Number
  | .literal l => l.numbers
  | .list items => Arguments.numbers items
  | .map entries => Entries.numbers entries
  | .call _ arguments => Arguments.numbers arguments
termination_by structural a => a

def Arguments.numbers : List Argument → List Number
  | [] => []
  | a :: rest => a.numbers ++ Arguments.numbers rest
termination_by structural a => a

def Entries.numbers : Entries → List Number
  | [] => []
  | (k, v) :: rest => k.numbers ++ v.numbers ++ Entries.numbers rest
termination_by structural a => a

end

def Call.numbers (c : Call) : List Number :=
  Arguments.numbers c.arguments

def Repeat.numbers : Repeat → List Number
  | .times _ => []
  | .forever => []
  | .call c => c.numbers

mutual

/-- The number literals in an item. The number of passes of a schedule is no literal. -/
def Item.numbers : Item → List Number
  | .interval n => [n]
  | .call c => c.numbers
  | .schedule items passes => Items.numbers items ++ passes.numbers
termination_by structural a => a

def Items.numbers : List Item → List Number
  | [] => []
  | a :: rest => a.numbers ++ Items.numbers rest
termination_by structural a => a

end

def Schedule.numbers (s : Schedule) : List Number :=
  s.toItem.numbers

def Statement.numbers (s : Statement) : List Number :=
  s.action.numbers ++ s.schedule.numbers

/-- All number literals of a program are finite. -/
def Statements.NumbersFinite (program : List Statement) : Prop :=
  ∀ s ∈ program, ∀ n ∈ s.numbers, n.IsFinite

/-! ## Different programs have different JSON values -/

theorem Number.toJson_inj {m n : Number} (h : m.toJson = n.toJson) : m = n := by
  cases m with
  | int i =>
    cases n with
    | int j => exact congrArg Number.int (Int64.toInt_inj.1 (Json.integer.inj h))
    | float y => cases h
  | float x =>
    cases n with
    | int j => cases h
    | float y => exact congrArg Number.float (Json.number.inj h)

theorem Literal.toJson_inj {l m : Literal} (h : l.toJson = m.toJson) : l = m := by
  cases l with
  | number a =>
    cases m with
    | number b => exact congrArg Literal.number (Number.toJson_inj h)
    | string _ | boolean _ => cases a <;> cases h
  | string s =>
    cases m with
    | number b => cases b <;> cases h
    | string t => exact congrArg Literal.string (Json.string.inj h)
    | boolean _ => cases h
  | boolean b =>
    cases m with
    | number b => cases b <;> cases h
    | string _ => cases h
    | boolean c => exact congrArg Literal.boolean (Json.boolean.inj h)

theorem Json.field_inj {name : String} {j k : Json} (h : object [(name, j)] = object [(name, k)]) : j = k := by
  cases h
  rfl

theorem Json.fields_inj {name other : String} {j j' k k' : Json}
    (h : object [(name, j), (other, j')] = object [(name, k), (other, k')]) : j = k ∧ j' = k' := by
  cases h
  exact ⟨rfl, rfl⟩

mutual

theorem Argument.toJson_inj : ∀ a b : Argument, a.toJson = b.toJson → a = b
  | .literal l, b, h => by
    cases b with
    | literal m => exact congrArg Argument.literal (Literal.toJson_inj (Json.field_inj h))
    | _ => simp [Argument.toJson] at h
  | .list items, b, h => by
    cases b with
    | list others =>
      have hitems := Json.array.inj (Json.field_inj (Json.field_inj h))
      exact congrArg Argument.list (Arguments.toJson_inj items others hitems)
    | _ => simp [Argument.toJson] at h
  | .map entries, b, h => by
    cases b with
    | map others =>
      have hentries := Json.array.inj (Json.field_inj (Json.field_inj h))
      exact congrArg Argument.map (Entries.toJson_inj entries others hentries)
    | _ => simp [Argument.toJson] at h
  | .call name arguments, b, h => by
    cases b with
    | call name' others =>
      obtain ⟨hname, harguments⟩ := Json.fields_inj (Json.field_inj h)
      rw [Json.string.inj hname, Arguments.toJson_inj arguments others (Json.array.inj harguments)]
    | _ => simp [Argument.toJson] at h

theorem Arguments.toJson_inj : ∀ as bs : List Argument, Arguments.toJson as = Arguments.toJson bs → as = bs
  | [], [], _ => rfl
  | [], _ :: _, h => nomatch h
  | _ :: _, [], h => nomatch h
  | a :: as, b :: bs, h => by
    obtain ⟨hfirst, hrest⟩ := List.cons.inj h
    rw [Argument.toJson_inj a b hfirst, Arguments.toJson_inj as bs hrest]

theorem Entries.toJson_inj : ∀ es fs : Entries, Entries.toJson es = Entries.toJson fs → es = fs
  | [], [], _ => rfl
  | [], _ :: _, h => nomatch h
  | _ :: _, [], h => nomatch h
  | (k, v) :: es, (l, w) :: fs, h => by
    obtain ⟨hfirst, hrest⟩ := List.cons.inj h
    simp only [Json.array.injEq, List.cons.injEq, and_true] at hfirst
    rw [Argument.toJson_inj k l hfirst.1, Argument.toJson_inj v w hfirst.2, Entries.toJson_inj es fs hrest]

end

theorem Call.toJson_inj {c d : Call} (h : c.toJson = d.toJson) : c = d := by
  obtain ⟨name, arguments⟩ := c
  obtain ⟨name', arguments'⟩ := d
  obtain ⟨hname, harguments⟩ := Json.fields_inj h
  obtain rfl : name = name' := Json.string.inj hname
  obtain rfl : arguments = arguments' := Arguments.toJson_inj _ _ (Json.array.inj harguments)
  rfl

theorem Repeat.toJson_inj {m n : Repeat} (h : m.toJson = n.toJson) : m = n := by
  cases m with
  | times i =>
    cases n with
    | times j =>
      have hcount : i.toNat = j.toNat := Int.ofNat.inj (Json.integer.inj (Json.field_inj h))
      rw [UInt64.toNat_inj.1 hcount]
    | _ => simp [toJson] at h
  | forever =>
    cases n with
    | forever => rfl
    | _ => simp [toJson] at h
  | call c =>
    cases n with
    | call d => rw [Call.toJson_inj (Json.field_inj h)]
    | _ => simp [toJson] at h

mutual

theorem Item.toJson_inj : ∀ a b : Item, a.toJson = b.toJson → a = b
  | .interval n, b, h => by
    cases b with
    | interval m => exact congrArg Item.interval (Number.toJson_inj (Json.field_inj h))
    | _ => simp [Item.toJson] at h
  | .call c, b, h => by
    cases b with
    | call d => exact congrArg Item.call (Call.toJson_inj (Json.field_inj h))
    | _ => simp [Item.toJson] at h
  | .schedule items passes, b, h => by
    cases b with
    | schedule others passes' =>
      obtain ⟨hitems, hpasses⟩ := Json.fields_inj (Json.field_inj h)
      rw [Items.toJson_inj items others (Json.array.inj hitems), Repeat.toJson_inj hpasses]
    | _ => simp [Item.toJson] at h

theorem Items.toJson_inj : ∀ as bs : List Item, Items.toJson as = Items.toJson bs → as = bs
  | [], [], _ => rfl
  | [], _ :: _, h => nomatch h
  | _ :: _, [], h => nomatch h
  | a :: as, b :: bs, h => by
    obtain ⟨hfirst, hrest⟩ := List.cons.inj h
    rw [Item.toJson_inj a b hfirst, Items.toJson_inj as bs hrest]

end

theorem Schedule.toJson_inj {s t : Schedule} (h : s.toJson = t.toJson) : s = t := by
  obtain ⟨items, passes⟩ := s
  obtain ⟨items', passes'⟩ := t
  obtain ⟨hitems, hpasses⟩ := Json.fields_inj h
  obtain rfl : items = items' := Items.toJson_inj _ _ (Json.array.inj hitems)
  obtain rfl : passes = passes' := Repeat.toJson_inj hpasses
  rfl

theorem Statement.toJson_inj {s t : Statement} (h : s.toJson = t.toJson) : s = t := by
  obtain ⟨action, schedule⟩ := s
  obtain ⟨action', schedule'⟩ := t
  obtain ⟨haction, hschedule⟩ := Json.fields_inj h
  obtain rfl : action = action' := Call.toJson_inj haction
  obtain rfl : schedule = schedule' := Schedule.toJson_inj hschedule
  rfl

/-- No two programs have the same JSON value. -/
theorem Statements.toJson_inj {p q : List Statement} (h : toJson p = toJson q) : p = q :=
  (List.map_inj_right fun _ _ => Statement.toJson_inj).1 (Json.array.inj h)

/-! ## Finite numbers -/

theorem Number.isFinite_toJson {n : Number} (h : n.IsFinite) : n.toJson.IsFinite := by
  cases n with
  | int i => trivial
  | float x => exact h

theorem Literal.isFinite_toJson {l : Literal} (h : ∀ n ∈ l.numbers, n.IsFinite) : l.toJson.IsFinite := by
  cases l with
  | number n => exact Number.isFinite_toJson (h n List.mem_cons_self)
  | string _ | boolean _ => trivial

mutual

theorem Argument.isFinite_toJson : ∀ a : Argument, (∀ n ∈ a.numbers, n.IsFinite) → a.toJson.IsFinite
  | .literal _, h => ⟨Literal.isFinite_toJson h, trivial⟩
  | .list items, h => ⟨⟨Arguments.isFinite_toJson items h, trivial⟩, trivial⟩
  | .map entries, h => ⟨⟨Entries.isFinite_toJson entries h, trivial⟩, trivial⟩
  | .call _ arguments, h => ⟨⟨trivial, Arguments.isFinite_toJson arguments h, trivial⟩, trivial⟩

theorem Arguments.isFinite_toJson : ∀ as : List Argument, (∀ n ∈ Arguments.numbers as, n.IsFinite) →
    Json.EachFinite (Arguments.toJson as)
  | [], _ => trivial
  | a :: rest, h =>
    have ⟨hfirst, hrest⟩ := List.forall_mem_append.1 h
    ⟨Argument.isFinite_toJson a hfirst, Arguments.isFinite_toJson rest hrest⟩

theorem Entries.isFinite_toJson : ∀ es : Entries, (∀ n ∈ Entries.numbers es, n.IsFinite) →
    Json.EachFinite (Entries.toJson es)
  | [], _ => trivial
  | (k, v) :: rest, h =>
    have ⟨hfirst, hrest⟩ := List.forall_mem_append.1 h
    have ⟨hkey, hvalue⟩ := List.forall_mem_append.1 hfirst
    ⟨⟨Argument.isFinite_toJson k hkey, Argument.isFinite_toJson v hvalue, trivial⟩,
      Entries.isFinite_toJson rest hrest⟩

end

theorem Call.isFinite_toJson {c : Call} (h : ∀ n ∈ c.numbers, n.IsFinite) : c.toJson.IsFinite :=
  ⟨trivial, Arguments.isFinite_toJson c.arguments h, trivial⟩

theorem Repeat.isFinite_toJson {m : Repeat} (h : ∀ n ∈ m.numbers, n.IsFinite) : m.toJson.IsFinite := by
  cases m with
  | times _ => exact ⟨trivial, trivial⟩
  | forever => trivial
  | call c => exact ⟨Call.isFinite_toJson h, trivial⟩

mutual

theorem Item.isFinite_toJson : ∀ a : Item, (∀ n ∈ a.numbers, n.IsFinite) → a.toJson.IsFinite
  | .interval n, h => ⟨Number.isFinite_toJson (h n List.mem_cons_self), trivial⟩
  | .call _, h => ⟨Call.isFinite_toJson h, trivial⟩
  | .schedule items _, h =>
    have ⟨hitems, hpasses⟩ := List.forall_mem_append.1 h
    ⟨⟨Items.isFinite_toJson items hitems, Repeat.isFinite_toJson hpasses, trivial⟩, trivial⟩

theorem Items.isFinite_toJson : ∀ as : List Item, (∀ n ∈ Items.numbers as, n.IsFinite) →
    Json.EachFinite (Items.toJson as)
  | [], _ => trivial
  | a :: rest, h =>
    have ⟨hfirst, hrest⟩ := List.forall_mem_append.1 h
    ⟨Item.isFinite_toJson a hfirst, Items.isFinite_toJson rest hrest⟩

end

theorem Statement.isFinite_toJson {s : Statement} (h : ∀ n ∈ s.numbers, n.IsFinite) : s.toJson.IsFinite := by
  obtain ⟨haction, hschedule⟩ := List.forall_mem_append.1 h
  obtain ⟨hitems, hpasses⟩ := List.forall_mem_append.1 hschedule
  exact ⟨Call.isFinite_toJson haction,
    ⟨Items.isFinite_toJson s.schedule.items hitems, Repeat.isFinite_toJson hpasses, trivial⟩, trivial⟩

/-- A program whose number literals are finite has a JSON value whose numbers are. -/
theorem Statements.isFinite_toJson {program : List Statement} (h : NumbersFinite program) :
    (toJson program).IsFinite := by
  refine Json.eachFinite_iff.2 fun j hj => ?_
  obtain ⟨s, hs, rfl⟩ := List.mem_map.1 hj
  exact Statement.isFinite_toJson (h s hs)

/-! ## Different programs have different texts -/

/-- Programs that differ anywhere have different JSON texts, on one line and with one element a line, and `check`
prints different lines for them. -/
theorem Statements.jsonText_ne {p q : List Statement} (hp : NumbersFinite p) (hq : NumbersFinite q) (hne : p ≠ q) :
    (toJson p).text ≠ (toJson q).text ∧ (toJson p).prettyText ≠ (toJson q).prettyText ∧
      ∀ (file file' source source' : String) (w w' v v' : World Console),
        readProgram source = .ok p → readProgram source' = .ok q →
        Cli.check file (.ok source) true w = (.ok (), v) → Cli.check file' (.ok source') true w' = (.ok (), v') →
        v.state.outputs.back? ≠ v'.state.outputs.back? := by
  have hfinite := isFinite_toJson hp
  have hfinite' := isFinite_toJson hq
  have hpretty : (toJson p).prettyText ≠ (toJson q).prettyText := fun heq =>
    hne (toJson_inj (Json.prettyText_inj hfinite hfinite' heq))
  refine ⟨fun heq => hne (toJson_inj (Json.text_inj hfinite hfinite' heq)), hpretty, ?_⟩
  intro file file' source source' w w' v v' hread hread' hcheck hcheck' heq
  rw [Cli.back?_of_check_json hread hcheck, Cli.back?_of_check_json hread' hcheck'] at heq
  exact hpretty (Output.printed.inj (Option.some.inj heq))

namespace Sample

/-- `f(0.0)@[0]`, or `f(-0.0)@[0]`. -/
def zero (negative : Bool) : Statement :=
  ⟨⟨"f", [.literal (.number (.float (.signed negative .zero)))]⟩, ⟨[.interval (.int 0)], .times 1⟩⟩

end Sample

/-- The sign of a zero is kept. -/
theorem Statements.jsonText_ne_zero :
    (toJson [Sample.zero false]).text ≠ (toJson [Sample.zero true]).text ∧
      (toJson [Sample.zero false]).prettyText ≠ (toJson [Sample.zero true]).prettyText := by
  have hfinite : ∀ negative, NumbersFinite [Sample.zero negative] := by
    intro negative s hs n hn
    obtain rfl := List.mem_singleton.1 hs
    rcases List.mem_cons.1 hn with rfl | hn
    · rfl
    · obtain rfl := List.mem_singleton.1 hn
      trivial
  have hne : [Sample.zero false] ≠ [Sample.zero true] := by
    intro heq
    cases heq
  have hdiffer := jsonText_ne (hfinite false) (hfinite true) hne
  exact ⟨hdiffer.1, hdiffer.2.1⟩

end Cadence
