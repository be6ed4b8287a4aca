import ExtendedRegex.Pattern.Error
import ExtendedRegex.Pattern.Stack

/-!
Bracket expressions: the items between the brackets are gathered from the stack into one set.
-/

set_option autoImplicit false
set_option relaxedAutoImplicit false

namespace ExtendedRegex

/-- The offset of the innermost opening bracket, if a hyphen right after it is on top. -/
def leadingHyphen? (level : Nat) : List Item → Option Nat
  | item :: .marker (.openBracket l offset) :: _ =>
    if item.unit? = some '-' ∧ l + 1 = level then some offset else none
  | _ => none

/-- The unit below a hyphen that is on top. -/
def rangeStart? : List Item → Option CodeUnit
  | item :: below :: _ => if item.unit? = some '-' then below.unit? else none
  | _ => none

/-- Adds the items down to the innermost opening bracket to a set. A hyphen with a unit on both
sides is a range; one that follows the bracket and precedes another item is refused. Only units and
sets are items. -/
def gatherSet (level closing : Nat) (set : CodeSet) :
    List Item → Except Flaw (CodeSet × List Item)
  | [] => .error ⟨.malformed, closing⟩
  | .marker (.openBracket l offset) :: below =>
    if l + 1 = level then .ok (set, below) else .error ⟨.malformed, offset⟩
  | .marker m :: _ => .error ⟨.malformed, m.offset⟩
  | .part p :: below =>
    match leadingHyphen? level below with
    | some offset => .error ⟨.malformedRange, offset + 1⟩
    | none =>
      match p.tree, rangeStart? below with
      | .literal (.unit u), some v =>
        gatherSet level closing (set.insert (.between v.code u.code)) (below.drop 2)
      | .literal (.unit u), none => gatherSet level closing (set.insert (.single u.code)) below
      | .oneOf t, _ => gatherSet level closing (set.union t) below
      | _, _ => .error ⟨.malformedSet, closing⟩
termination_by items => items.length
decreasing_by all_goals simp only [List.length_cons, List.length_drop]; omega

/-- A set of one unit that is not negated is that unit. -/
def bracketTree (negated : Bool) (set : CodeSet) : Regex :=
  match negated, set.single? with
  | false, some code => .literal (.unit code.toNat.toUInt16)
  | false, none => .oneOf set
  | true, _ => .oneOf set.complement

/-- Puts one tree in the place of a bracket expression. Brackets around nothing leave nothing. -/
def closeBracket (negated : Bool) (level closing : Nat) (stack : List Item) :
    Except Flaw (List Item) := do
  let (set, below) ← gatherSet level closing .empty stack
  return if set.isEmpty then below else .part (.leaf (bracketTree negated set)) :: below

end ExtendedRegex
