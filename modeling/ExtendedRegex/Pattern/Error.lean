import ExtendedRegex.Limits
import ExtendedRegex.Regex.Basic

/-!
What can be wrong with a pattern, where, and the message that says so.
-/

set_option autoImplicit false
set_option relaxedAutoImplicit false

namespace ExtendedRegex

def Quantifier.mark : Quantifier → Char
  | star => '*'
  | plus => '+'
  | opt => '?'

inductive Fault where
  | patternTooLarge (length : Nat) (limit : Int)
  | unterminatedEscape
  | unknownEscape (u : CodeUnit)
  | nestingTooDeep
  | dangling (quantifier : Quantifier)
  | unbalancedClose
  | malformed
  | malformedRange
  | malformedSet
  | countTooLarge
  | expansionTooLarge
deriving DecidableEq, Repr

def Fault.description : Fault → Text
  | patternTooLarge length limit =>
    .ofString s!"Pattern too large: {length} characters exceeds limit of {limit}"
  | unterminatedEscape => .ofString "Unterminated escaped character"
  | unknownEscape u => Text.pushChar ((Text.ofString "Unknown escaped character '\\").push u) '\''
  | nestingTooDeep => .ofString s!"Nesting too deep: exceeds limit of {maxNestingDepth}"
  | dangling quantifier =>
    ((Text.ofString "Dangling control meta character '").pushChar quantifier.mark).pushChar '\''
  | unbalancedClose => .ofString "Unbalanced closing character ')'"
  | malformed => .ofString "Malformed regular expression"
  | malformedRange => .ofString "Malformed range"
  | malformedSet => .ofString "Malformed character set"
  | countTooLarge => .ofString s!"Repetition count too large: exceeds limit of {maxRepetition}"
  | expansionTooLarge =>
    .ofString s!"Repetition too large: expanded pattern exceeds limit of {maxExpandedSize} nodes"

/-- A fault and the offset in the pattern that it is reported at. -/
structure Flaw where
  fault : Fault
  offset : Nat
deriving DecidableEq, Repr

structure SyntaxError extends Flaw where
  pattern : Text
deriving DecidableEq, Repr

/-- The description and the offset, the pattern from there on, and a caret. -/
def SyntaxError.message (e : SyntaxError) : Text :=
  let head := e.fault.description.pushString s!" near index {e.offset}\n"
  Text.pushString (head ++ e.pattern.sliceFrom e.offset) "\n^"

end ExtendedRegex
