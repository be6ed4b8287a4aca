import ExtendedRegex.Pattern.Bound
import ExtendedRegex.Pattern.Stack

/-!
Reductions of the top of the stack: the operand of a quantifier or a bound, the branch that a bar
or the end of the pattern closes, and the group that a parenthesis closes.
-/

set_option autoImplicit false
set_option relaxedAutoImplicit false

namespace ExtendedRegex

namespace Part

/-- A part in front of what has been joined so far. -/
def before (p : Part) (rest : Option Part) (s : Sharing) : Part × Sharing :=
  match rest with
  | none => (p, s)
  | some q => p.join .cat q s

/-- What has been joined so far, as the right operand of a bar. -/
def orElse (left : Part) (right : Option Part) (s : Sharing) : Part × Sharing :=
  left.join .alt (right.getD (leaf .empty)) s

end Part

/-- Wraps the part on top of the stack. -/
def quantify (q : Quantifier) (greedy : Bool) (offset : Nat) :
    List Item → Sharing → Except Flaw Reduced
  | [], _ => .error ⟨.dangling q, offset⟩
  | .marker m :: _, _ => .error ⟨.malformed, m.offset⟩
  | .part p :: below, s =>
    let (p, s) := p.wrap (q.apply greedy) s
    .ok (.part p :: below, s)

/-- Joins the parts on top of the stack into one, with the part on the left of a bar if there is
one. The opening of the innermost group stays on the stack. -/
def closeBranch (level : Nat) : Option Part → List Item → Sharing → Except Flaw Reduced
  | acc, [], s => .ok ([.part (acc.getD (.leaf .empty))], s)
  | acc, .part p :: below, s =>
    let (p, s) := p.before acc s
    closeBranch level (some p) below s
  | acc, .marker (.openGroup l offset) :: below, s =>
    if l + 1 = level then
      .ok (.part (acc.getD (.leaf .empty)) :: .marker (.openGroup l offset) :: below, s)
    else .error ⟨.malformed, offset⟩
  | acc, .marker (.bar _) :: .part left :: below, s =>
    let (p, s) := left.orElse acc s
    .ok (.part p :: below, s)
  | _, .marker m :: _, _ => .error ⟨.malformed, m.offset⟩

/-- Joins everything down to the opening of the innermost group, alternatives included, and puts
the group in its place. A group is labelled by the offset of its opening. -/
def closeGroup (level closing : Nat) : Option Part → List Item → Sharing → Except Flaw Reduced
  | _, [], _ => .error ⟨.unbalancedClose, closing⟩
  | acc, .part p :: below, s =>
    let (p, s) := p.before acc s
    closeGroup level closing (some p) below s
  | acc, .marker (.openGroup l offset) :: below, s =>
    if l + 1 = level then
      let (p, s) := (acc.getD (.leaf .empty)).wrap (.group offset) s
      .ok (.part p :: below, s)
    else .error ⟨.malformed, offset⟩
  | acc, .marker (.bar _) :: .part left :: below, s =>
    let (p, s) := left.orElse acc s
    closeGroup level closing (some p) below s
  | _, .marker m :: _, _ => .error ⟨.malformed, m.offset⟩

/-- The units on the stack down to the opening of a bound, in the order they were read. -/
def boundUnits (closing : Nat) (units : List CodeUnit) :
    List Item → Except Flaw (Nat × List CodeUnit × List Item)
  | .part ⟨.literal (.unit u), _⟩ :: below => boundUnits closing (u :: units) below
  | .marker (.openBound offset) :: below => .ok (offset, units, below)
  | _ => .error ⟨.malformed, closing⟩

/-- The operand of a bound; a bound with nothing before it repeats the empty tree. -/
def boundOperand : List Item → Except Flaw (Part × List Item)
  | [] => .ok (.leaf .empty, [])
  | .part p :: below => .ok (p, below)
  | .marker m :: _ => .error ⟨.malformed, m.offset⟩

/-- Replaces a bound and its operand by the expansion, unless that would be too large. -/
def closeBound (closing : Nat) (stack : List Item) (s : Sharing) : Except Flaw Reduced := do
  let (opening, units, below) ← boundUnits closing [] stack
  let bound ← Bound.read opening closing units
  let (operand, below) ← boundOperand below
  let (size, s) := s.measure operand.place
  if bound.copies?.any (maxExpandedSize < size * ·) then throw ⟨.expansionTooLarge, opening⟩
  let (p, s) := bound.expand operand s
  return (.part p :: below, s)

end ExtendedRegex
