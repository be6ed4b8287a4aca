import ExtendedRegex.Matcher.Match
import ExtendedRegex.Pattern.Bound

/-!
Replacement templates. A dollar sign and a digit stand for the text of a group, two dollar signs for
one; any other dollar sign stands for itself. What is inserted is not expanded again.
-/

set_option autoImplicit false
set_option relaxedAutoImplicit false

namespace ExtendedRegex

inductive TemplatePart where
  | unit (u : CodeUnit)
  | group (k : Nat)
deriving DecidableEq, Repr

namespace TemplatePart

/-- Reads a template from left to right. -/
def ofUnits : List CodeUnit → List TemplatePart
  | [] => []
  | [u] => [unit u]
  | u :: v :: rest =>
    if u = '$' then
      if v = '$' then unit u :: ofUnits rest
      else
        match v.digit? with
        | some k => group k :: ofUnits rest
        | none => unit u :: ofUnits (v :: rest)
    else unit u :: ofUnits (v :: rest)

/-- Groups that are not set, or do not exist, leave nothing. -/
def appendTo (m : Match) (t : Text) : TemplatePart → Text
  | unit u => t.push u
  | group k => t ++ (m.group k).getD #[]

end TemplatePart

inductive Replacement where
  | template (t : Text)
  /-- The text is inserted as it is. -/
  | compute (f : Match → Text)

def expandTemplate (template : Text) (m : Match) : Text :=
  (TemplatePart.ofUnits template.toList).foldl (TemplatePart.appendTo m) #[]

def Replacement.text (r : Replacement) (m : Match) : Text :=
  match r with
  | template t => expandTemplate t m
  | compute f => f m

end ExtendedRegex
