import ExtendedRegex.CodeSet.Basic
import ExtendedRegex.Text.Quoted

/-!
The bracketed text form of ranges and sets.
-/

set_option autoImplicit false
set_option relaxedAutoImplicit false

namespace ExtendedRegex

/-- A code stands for itself from `!` to `~`; any other is written as an escape. -/
def displayCode (code : Int) : String :=
  if 0x21 ≤ code ∧ code ≤ 0x7E then String.singleton (Char.ofNat code.toNat)
  else unicodeEscape code

def CodeRange.display (r : CodeRange) : String :=
  if r.lo = r.hi then displayCode r.lo else displayCode r.lo ++ "-" ++ displayCode r.hi

def CodeSet.display (s : CodeSet) : String :=
  "[" ++ String.join (s.ranges.toList.map CodeRange.display) ++ "]"

end ExtendedRegex
