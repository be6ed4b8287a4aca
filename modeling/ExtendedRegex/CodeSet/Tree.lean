import ExtendedRegex.CodeSet.Basic

/-!
Balanced search trees over the ranges of a set, for membership tests while matching.
-/

set_option autoImplicit false
set_option relaxedAutoImplicit false

namespace ExtendedRegex

inductive RangeTree where
  | leaf
  | node (range : CodeRange) (left right : RangeTree)
deriving Repr

namespace RangeTree

/-- The middle range is the root; of two middle ranges, the first. -/
def ofList (ranges : List CodeRange) : RangeTree :=
  match h : ranges.drop ((ranges.length - 1) / 2) with
  | [] => leaf
  | r :: above => node r (ofList (ranges.take ((ranges.length - 1) / 2))) (ofList above)
termination_by ranges.length
decreasing_by
  all_goals
    have hlength := congrArg List.length h
    simp only [List.length_drop, List.length_cons, List.length_take] at hlength ⊢
    omega

def contains (code : Int) : RangeTree → Bool
  | leaf => false
  | node r left right =>
    if code < r.lo then left.contains code
    else if r.hi < code then right.contains code
    else true

/-- The ranges from left to right. -/
def toList : RangeTree → List CodeRange
  | leaf => []
  | node r left right => left.toList ++ r :: right.toList

end RangeTree

def CodeSet.tree (s : CodeSet) : RangeTree := .ofList s.ranges.toList

end ExtendedRegex
