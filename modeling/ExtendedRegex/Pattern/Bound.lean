import ExtendedRegex.Pattern.Error
import ExtendedRegex.Pattern.Sharing

/-!
Bounds on the number of repetitions: how their counts are read, which bounds are refused, and what
an operand with a bound expands to.
-/

set_option autoImplicit false
set_option relaxedAutoImplicit false

namespace ExtendedRegex

inductive Count where
  | exact (n : Nat)
  | indeterminate
deriving DecidableEq, Repr

namespace Count

/-- The number of places of a count that have a value of their own. -/
def placeCount : Nat := 309

/-- The decimal value of the digits, the highest place first. A zero beyond the places that have a
value leaves the count indeterminate; any other digit there is larger than every limit. -/
def ofDigits (digits : List Nat) : Count :=
  if 0 ∈ digits.take (digits.length - placeCount) then indeterminate
  else exact (digits.foldl (fun n digit ↦ 10 * n + digit) 0)

/-- An indeterminate count exceeds nothing and is exceeded by nothing. -/
def exceeds : Count → Count → Bool
  | exact m, exact n => n < m
  | _, _ => false

end Count

def CodeUnit.digit? (u : CodeUnit) : Option Nat :=
  if '0' ≤ u ∧ u ≤ '9' then some (u.toNat - '0'.toNat) else none

/-- A bound without an upper count is open. -/
structure Bound where
  low : Count
  high : Option Count
deriving DecidableEq, Repr

namespace Bound

/-- The counts between the braces: one for both ends, or two with a comma between them of which
one may be missing. What is no bound at all is reported at the closing brace, and a bound without
any digit at the opening one. -/
def counts (opening closing : Nat) (units : List CodeUnit) : Except Flaw Bound :=
  match units.span fun u ↦ u ≠ (',' : CodeUnit) with
  | (units, []) =>
    match units.mapM CodeUnit.digit? with
    | none => .error ⟨.malformed, closing⟩
    | some [] => .error ⟨.malformed, opening⟩
    | some digits => .ok ⟨.ofDigits digits, some (.ofDigits digits)⟩
  | (low, _ :: high) =>
    match low.mapM CodeUnit.digit?, high.mapM CodeUnit.digit? with
    | some [], some [] => .error ⟨.malformed, opening⟩
    | some low, some [] => .ok ⟨.ofDigits low, none⟩
    | some low, some high => .ok ⟨.ofDigits low, some (.ofDigits high)⟩
    | _, _ => .error ⟨.malformed, closing⟩

/-- Reads a bound and checks that no count is too large and the ends are in order. -/
def read (opening closing : Nat) (units : List CodeUnit) : Except Flaw Bound := do
  let bound ← counts opening closing units
  let limit := Count.exact maxRepetition
  if bound.low.exceeds limit || bound.high.any (·.exceeds limit) then
    throw ⟨.countTooLarge, opening⟩
  if bound.high.any bound.low.exceeds then throw ⟨.malformed, closing⟩
  return bound

/-- How many copies of the operand the expansion is charged for, if the counts say so. -/
def copies? (b : Bound) : Option Nat :=
  match b.low, b.high with
  | .exact low, none => some (max low 1)
  | .exact low, some (.exact high) => some (max (max low high) 1)
  | _, _ => none

/-- Copies of the operand up to the lower count, then as many lazy optional ones as the upper count
allows; the last copy of an open bound repeats. No copy is made for an indeterminate count. -/
def expand (b : Bound) (p : Part) (s : Sharing) : Part × Sharing :=
  match b.low, b.high with
  | .exact 0, none => p.wrap (.star · true) s
  | .exact (n + 1), none =>
    let (last, s) := p.wrap (.plus · true) s
    Part.sequence (List.replicate n p ++ [last]) s
  | .indeterminate, none => p.wrap (.plus · true) s
  | .exact low, some (.exact high) =>
    let (optional, s) := p.wrap (.opt · false) s
    Part.sequence (List.replicate low p ++ List.replicate (high - low) optional) s
  | .exact low, some .indeterminate => Part.sequence (List.replicate low p) s
  | .indeterminate, some _ => (Part.leaf .empty, s)

end Bound

end ExtendedRegex
