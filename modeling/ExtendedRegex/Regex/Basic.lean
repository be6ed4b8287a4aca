import ExtendedRegex.CodeSet.Basic
import ExtendedRegex.Text.Literal

/-!
Regular expression trees. A group carries a label, and two groups of one tree with the same label
are occurrences of one group: repeating an operand repeats its labels.
-/

set_option autoImplicit false
set_option relaxedAutoImplicit false

namespace ExtendedRegex

/-- The sum of a list of counts. -/
def total : List Nat → Nat
  | [] => 0
  | count :: counts => count + total counts

@[simp] theorem total_nil : total [] = 0 := rfl

@[simp] theorem total_cons (count : Nat) (counts : List Nat) :
    total (count :: counts) = count + total counts := rfl

inductive Regex where
  | empty
  | any
  | literal (l : Literal)
  | cat (left right : Regex)
  | alt (left right : Regex)
  | opt (inner : Regex) (greedy : Bool)
  | star (inner : Regex) (greedy : Bool)
  | plus (inner : Regex) (greedy : Bool)
  | oneOf (set : CodeSet)
  | group (label : Nat) (inner : Regex)
  | startAnchor
  | endAnchor
deriving DecidableEq, Repr

namespace Regex

/-- The direct operands, from left to right. -/
def operands : Regex → List Regex
  | cat left right | alt left right => [left, right]
  | opt inner _ | star inner _ | plus inner _ | group _ inner => [inner]
  | empty | any | literal _ | oneOf _ | startAnchor | endAnchor => []

def nodeCount : Regex → Nat
  | cat left right | alt left right => 1 + left.nodeCount + right.nodeCount
  | opt inner _ | star inner _ | plus inner _ | group _ inner => 1 + inner.nodeCount
  | empty | any | literal _ | oneOf _ | startAnchor | endAnchor => 1

/-- The concatenation of a list of trees, nested to the left. -/
def sequence : List Regex → Regex
  | [] => empty
  | e :: rest => rest.foldl cat e

end Regex

inductive Quantifier where
  | star
  | plus
  | opt
deriving DecidableEq, Repr

def Quantifier.apply (q : Quantifier) (greedy : Bool) (e : Regex) : Regex :=
  match q with
  | star => .star e greedy
  | plus => .plus e greedy
  | opt => .opt e greedy

end ExtendedRegex
