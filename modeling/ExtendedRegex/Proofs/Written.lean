import ExtendedRegex.Pattern.Token
import ExtendedRegex.Pattern.Bound
import Mathlib.Data.List.Chain

/-!
Patterns as they are written: branches with bars between them, pieces of which every one is an atom
with marks behind it, and parentheses around whole patterns. Each has a text and stands for a tree.
A group is labelled by the offset of its parenthesis, so the tree depends on where the text stands.
-/

set_option autoImplicit false
set_option relaxedAutoImplicit false

namespace ExtendedRegex

/-- The concatenation of a list of trees, nested to the right. -/
def Regex.chain : List Regex → Regex
  | [] => empty
  | [e] => e
  | e :: e' :: rest => e.cat (chain (e' :: rest))

namespace Written

/-! ### Marks -/

/-- The counts between two braces, in order and none of them too large. -/
inductive Repetition where
  | exactly (n : Nat) (h : n ≤ maxRepetition)
  | atLeast (low : Nat) (h : low ≤ maxRepetition)
  | atMost (high : Nat) (h : high ≤ maxRepetition)
  | between (low high : Nat) (h : low ≤ high) (h' : high ≤ maxRepetition)

def decimal (n : Nat) : List CodeUnit := (Nat.toDigits 10 n).map CodeUnit.ofChar

namespace Repetition

/-- The text between the braces. -/
def counts : Repetition → List CodeUnit
  | exactly n _ => decimal n
  | atLeast low _ => decimal low ++ [(',' : CodeUnit)]
  | atMost high _ => (',' : CodeUnit) :: decimal high
  | between low high _ _ => decimal low ++ (',' : CodeUnit) :: decimal high

/-- What is written out for an operand: as many copies as there must be, then the lazy optional
ones; a repetition without an upper count ends in a loop. -/
def copies (e : Regex) : Repetition → List Regex
  | exactly n _ => List.replicate n e
  | atLeast 0 _ => [.star e true]
  | atLeast (n + 1) _ => List.replicate n e ++ [.plus e true]
  | atMost high _ => List.replicate high (.opt e false)
  | between low high _ _ => List.replicate low e ++ List.replicate (high - low) (.opt e false)

/-- How many copies are charged for. -/
def charge : Repetition → Nat
  | exactly n _ | atLeast n _ | atMost n _ | between _ n _ _ => max n 1

end Repetition

inductive Mark where
  | quantifier (q : Quantifier) (greedy : Bool)
  | repetition (r : Repetition)

namespace Mark

/-- A question mark behind a quantifier makes it lazy. -/
def render : Mark → List CodeUnit
  | quantifier q greedy => (q.mark : CodeUnit) :: if greedy then [] else [('?' : CodeUnit)]
  | repetition r => ('{' : CodeUnit) :: (r.counts ++ [('}' : CodeUnit)])

def apply (e : Regex) : Mark → Regex
  | quantifier q greedy => q.apply greedy e
  | repetition r => .sequence (r.copies e)

/-- Whether a mark can stand in front of another one: a greedy quantifier would take a question mark
for its own. -/
def precedes : Mark → Mark → Bool
  | quantifier _ true, quantifier .opt _ => false
  | _, _ => true

/-- Whether a mark may be put behind something that stands for a tree. -/
def Fits (e : Regex) : Mark → Prop
  | quantifier _ _ => True
  | repetition r => e.nodeCount * r.charge ≤ maxExpandedSize

end Mark

structure Marks where
  list : List Mark
  separated : list.IsChain fun m m' ↦ m.precedes m' = true

namespace Marks

def none : Marks := ⟨[], .nil⟩

def render (marks : Marks) : List CodeUnit := marks.list.flatMap Mark.render

/-- Each mark applies to everything in front of it. -/
def apply (marks : Marks) (e : Regex) : Regex := marks.list.foldl (fun e m ↦ m.apply e) e

end Marks

/-- Whether marks may be put behind something, one after another. -/
def AllFit : Regex → List Mark → Prop
  | _, [] => True
  | e, m :: marks => m.Fits e ∧ AllFit (m.apply e) marks

/-! ### Patterns -/

mutual

inductive Atom where
  | unit (u : CodeUnit)
  | any
  | startAnchor
  | endAnchor
  | builtin (b : Builtin) (negated : Bool)
  | group (inner : Branches)

/-- Pieces one after another, perhaps none. -/
inductive Branch where
  | nil
  | cons (atom : Atom) (marks : Marks) (rest : Branch)

/-- Branches with bars between them. -/
inductive Branches where
  | one (branch : Branch)
  | bar (left : Branches) (right : Branch)

end

/-- The unit that names a class after a backslash. -/
def builtinName : Builtin → Bool → CodeUnit
  | .digit, false => 'd'
  | .space, false => 's'
  | .word, false => 'w'
  | .digit, true => 'D'
  | .space, true => 'S'
  | .word, true => 'W'

/-- A unit that has a meaning of its own is written with a backslash. -/
def renderUnit (u : CodeUnit) : List CodeUnit :=
  if Mode.normal.escapes u then [('\\' : CodeUnit), u] else [u]

mutual

def Atom.render : Atom → List CodeUnit
  | .unit u => renderUnit u
  | .any => [('.' : CodeUnit)]
  | .startAnchor => [('^' : CodeUnit)]
  | .endAnchor => [('$' : CodeUnit)]
  | .builtin b negated => [('\\' : CodeUnit), builtinName b negated]
  | .group inner => ('(' : CodeUnit) :: (inner.render ++ [(')' : CodeUnit)])

def Branch.render : Branch → List CodeUnit
  | .nil => []
  | .cons atom marks rest => atom.render ++ (marks.render ++ rest.render)

def Branches.render : Branches → List CodeUnit
  | .one branch => branch.render
  | .bar left right => left.render ++ ('|' : CodeUnit) :: right.render

end

mutual

/-- The tree of an atom whose text starts at an offset. -/
def Atom.tree (offset : Nat) : Atom → Regex
  | .unit u => .literal (.unit u)
  | .any => .any
  | .startAnchor => .startAnchor
  | .endAnchor => .endAnchor
  | .builtin b negated => .oneOf (if negated then b.set.complement else b.set)
  | .group inner => .group offset (inner.tree (offset + 1))

/-- The trees of the pieces. -/
def Branch.trees (offset : Nat) : Branch → List Regex
  | .nil => []
  | .cons atom marks rest => marks.apply (atom.tree offset) ::
      rest.trees (offset + atom.render.length + marks.render.length)

def Branches.tree (offset : Nat) : Branches → Regex
  | .one branch => .chain (branch.trees offset)
  | .bar left right =>
    .alt (left.tree offset) (.chain (right.trees (offset + left.render.length + 1)))

end

mutual

/-- How deep groups are nested. -/
def Atom.depth : Atom → Nat
  | .group inner => inner.depth + 1
  | .unit _ | .any | .startAnchor | .endAnchor | .builtin _ _ => 0

def Branch.depth : Branch → Nat
  | .nil => 0
  | .cons atom _ rest => max atom.depth rest.depth

def Branches.depth : Branches → Nat
  | .one branch => branch.depth
  | .bar left right => max left.depth right.depth

end

mutual

/-- Whether no repetition in an atom is too large. -/
def Atom.Fits (offset : Nat) : Atom → Prop
  | .group inner => inner.Fits (offset + 1)
  | .unit _ | .any | .startAnchor | .endAnchor | .builtin _ _ => True

def Branch.Fits (offset : Nat) : Branch → Prop
  | .nil => True
  | .cons atom marks rest => atom.Fits offset ∧ AllFit (atom.tree offset) marks.list ∧
      rest.Fits (offset + atom.render.length + marks.render.length)

def Branches.Fits (offset : Nat) : Branches → Prop
  | .one branch => branch.Fits offset
  | .bar left right => left.Fits offset ∧ right.Fits (offset + left.render.length + 1)

end

end Written

end ExtendedRegex
