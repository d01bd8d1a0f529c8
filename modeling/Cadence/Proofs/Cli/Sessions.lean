import Cadence.Cli.Commands
import Cadence.Proofs.Bound.Host

/-!
# Sessions of the command line

What a session comes to that loads a file. A file is loaded exactly if its text can be read, is a program, and can be
bound (`Cli.loadFile_eq_ok_iff`). `check` prints the JSON text of the program that it loads (`Cli.back?_of_check_json`).
-/

namespace Cadence.Cli

variable {α : Type} {file source : String} {text : Text} {w w' : World Console}

theorem readText_eq_ok_iff : readText file text w = (.ok source, w') ↔ text = .ok source ∧ w' = w := by
  cases text with
  | error fault =>
    constructor
    · intro h
      cases h
    · rintro ⟨h, _⟩
      cases h
  | ok found =>
    constructor
    · intro h
      cases h
      exact ⟨rfl, rfl⟩
    · rintro ⟨h, rfl⟩
      cases h
      rfl

/-- A computation of the host gives the same value in a file. -/
theorem inFile_eq_ok_iff {act : Host Console α} {a : α} : inFile file act w = (.ok a, w') ↔ act w = (.ok a, w') := by
  have hlift : (liftM act.run : Session (Except Error α)) w = (.ok (act w).1, (act w).2) := rfl
  rw [inFile, Host.bind_of_ok hlift]
  rcases act w with ⟨e | b, v⟩
  · constructor <;> intro h <;> cases h
  · constructor <;> intro h <;> cases h <;> rfl

/-- A file is loaded exactly if its text can be read, is a program, and can be bound. -/
theorem loadFile_eq_ok_iff {program : List Statement} {bound : List (Bound.Statement Console Bound.Passes)} :
    loadFile file text w = (.ok (program, bound), w') ↔
      ∃ source, text = .ok source ∧ readProgram source = .ok program ∧
        Builtin.scheduler.bind program w = (.ok bound, w') := by
  simp only [loadFile, Host.bind_eq_ok_iff, readText_eq_ok_iff, inFile_eq_ok_iff, Host.ofResult_eq_ok_iff]
  constructor
  · rintro ⟨source, _, ⟨htext, rfl⟩, found, _, ⟨hread, rfl⟩, bound', v, hbind, h⟩
    cases h
    exact ⟨source, htext, hread, hbind⟩
  · rintro ⟨source, htext, hread, hbind⟩
    exact ⟨source, w, ⟨htext, rfl⟩, program, w, ⟨hread, rfl⟩, bound, w', hbind, rfl⟩

/-- `check` prints the JSON text of the program last, if it is asked to. -/
theorem back?_of_check_json {program : List Statement} (hread : readProgram source = .ok program)
    (h : check file (.ok source) true w = (.ok (), w')) :
    w'.state.outputs.back? = some (.printed (Statements.toJson program).prettyText) := by
  obtain ⟨⟨found, bound⟩, v, hload, hprint⟩ := Host.bind_eq_ok_iff.1 h
  obtain ⟨_, htext, hfound, _⟩ := loadFile_eq_ok_iff.1 hload
  cases htext
  obtain rfl : found = program := Except.ok.inj (hfound.symm.trans hread)
  cases hprint
  exact Array.back?_push

end Cadence.Cli
