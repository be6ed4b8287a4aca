/-!
The limits on patterns and searches: those that hold for every pattern, and those that a user of the
library may set.
-/

set_option autoImplicit false
set_option relaxedAutoImplicit false

namespace ExtendedRegex

/-- How deep groups and bracket expressions may nest, counted together. -/
def maxNestingDepth : Nat := 1000

/-- The largest count of a bound. -/
def maxRepetition : Nat := 1000

/-- The largest number of nodes of a tree in which every repetition is written out. -/
def maxExpandedSize : Nat := 1000000

structure Limits where
  /-- The length of the longest pattern that is read. -/
  maxPatternLength : Int := 100000
  /-- How many instructions one search may execute; without a number, as many as it takes. -/
  maxSteps : Option Int := none
deriving DecidableEq, Repr

/-- Limits of which some are left to their defaults. -/
def Limits.resolve (maxPatternLength maxSteps : Option Int) : Limits where
  maxPatternLength := maxPatternLength.getD ({} : Limits).maxPatternLength
  maxSteps := maxSteps

end ExtendedRegex
