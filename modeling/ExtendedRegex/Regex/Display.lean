import ExtendedRegex.CodeSet.Display
import ExtendedRegex.Regex.Basic

/-!
The compact text form of a tree, operator first.
-/

set_option autoImplicit false
set_option relaxedAutoImplicit false

namespace ExtendedRegex.Regex

/-- Lazy operators are marked. -/
def operatorName (name : String) (greedy : Bool) : String :=
  if greedy then name ++ "(" else name ++ "?("

def displayOnto (t : Text) : Regex → Text
  | empty => t.pushString "empty"
  | any => t.pushString "any"
  | literal l => Text.pushChar (t.pushString "lit(" ++ l.toText) ')'
  | cat left right =>
    (right.displayOnto ((left.displayOnto (t.pushString "cat(")).pushString ", ")).pushChar ')'
  | alt left right =>
    (right.displayOnto ((left.displayOnto (t.pushString "alt(")).pushString ", ")).pushChar ')'
  | opt inner greedy => (inner.displayOnto (t.pushString (operatorName "opt" greedy))).pushChar ')'
  | star inner greedy =>
    (inner.displayOnto (t.pushString (operatorName "star" greedy))).pushChar ')'
  | plus inner greedy =>
    (inner.displayOnto (t.pushString (operatorName "plus" greedy))).pushChar ')'
  | oneOf set => t.pushString ("class" ++ set.display)
  | group _ inner => (inner.displayOnto (t.pushString "group(")).pushChar ')'
  | startAnchor => t.pushString "start"
  | endAnchor => t.pushString "end"

def display (e : Regex) : Text := e.displayOnto #[]

end ExtendedRegex.Regex
