import ExtendedRegex.Regex.Basic
import Std.Data.HashSet

/-!
The groups of a tree, each label counted once however often the group occurs.
-/

set_option autoImplicit false
set_option relaxedAutoImplicit false

namespace ExtendedRegex.Regex

/-- Adds the labels of the groups in the pending trees. A label that is known already stands for a
group whose inside has been entered, so it is not entered again. -/
def collectGroups (seen : Std.HashSet Nat) : List Regex → Std.HashSet Nat
  | [] => seen
  | cat left right :: pending | alt left right :: pending =>
    collectGroups seen (left :: right :: pending)
  | opt inner _ :: pending | star inner _ :: pending | plus inner _ :: pending =>
    collectGroups seen (inner :: pending)
  | group label inner :: pending =>
    if label ∈ seen then collectGroups seen pending
    else collectGroups (seen.insert label) (inner :: pending)
  | empty :: pending | any :: pending | literal _ :: pending | oneOf _ :: pending
  | startAnchor :: pending | endAnchor :: pending => collectGroups seen pending
termination_by pending => total (pending.map nodeCount)
decreasing_by all_goals simp only [List.map_cons, total_cons, nodeCount]; omega

def groupCount (e : Regex) : Nat := (collectGroups ∅ [e]).size

end ExtendedRegex.Regex
