import Cadence.Binary64.Layout
import Cadence.Binary64.Numeral

/-!
# Clocks and settings

Time is counted in milliseconds. A clock says how long a delay lasts that is asked for in seconds; what it says is
zero if the asker goes on at once. On the steady clock there is a longest delay (`Clock.longest`). Runs have a time
scale, by which every interval is multiplied, and may have a limit.
-/

namespace Cadence

/-- How many milliseconds a delay lasts. -/
abbrev Clock := Binary64 → Nat

namespace Clock

/-- The clock on which no delay lasts. -/
def immediate : Clock := fun _ => 0

/-- The longest that a delay lasts: thirty years of 365 days. -/
def longest : Nat := 30 * 365 * 86400 * 1000

/-- The clock on which delays last as long as they say, rounded to the nanosecond and then up to the millisecond,
though none lasts longer than `longest`. -/
def steady : Clock := fun seconds =>
  if !Binary64.zero.lt seconds then 0
  else if !seconds.isFinite then longest
  else
    let nanoseconds := roundHalfEven (seconds.units.toNat * 1000000000) unitsPerOne
    min ((nanoseconds + 999999) / 1000000) longest

example : steady (.ofInt 2) = 2000 := by decide +kernel
example : steady ((Binary64.ofInt 1).div (.ofInt 10000)) = 1 := by decide +kernel
example : steady (.ofInt (-1)) = 0 := by decide +kernel
example : steady (.ofInt 1000000000) = longest := by decide +kernel

end Clock

/-- The settings of a run. -/
structure Settings where
  /-- What every interval is multiplied by. -/
  scale : Binary64
  /-- How often a statement is fired at most. -/
  limit : Option Nat

namespace Settings

/-- The settings of a run at the program's own pace and without limit. -/
def default : Settings := ⟨.ofInt 1, none⟩

/-- Whether a run with these settings makes sense: the time scale is finite and not negative. -/
def isValid (s : Settings) : Bool :=
  s.scale.isFinite && Binary64.zero.le s.scale

/-- The words for settings that make no sense. -/
def complaint (s : Settings) : String :=
  "time scale must be a non-negative number, got " ++ s.scale.text .plain

/-- The delay for an interval. -/
def pace (s : Settings) (interval : Binary64) : Binary64 :=
  interval.mul s.scale

/-- Whether so many firings are enough. -/
def isReached (s : Settings) (fired : Nat) : Bool :=
  s.limit.any (· ≤ fired)

end Settings

end Cadence
