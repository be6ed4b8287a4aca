import ExtendedRegex.Pattern.Sharing

/-!
The stack of a pattern that is being read: parts that are finished, and marks for what is still
open. The top of the stack is the head of the list.
-/

set_option autoImplicit false
set_option relaxedAutoImplicit false

namespace ExtendedRegex

/-- Something open, with its offset in the pattern. Groups and bracket expressions also carry the
nesting level they stand at. -/
inductive Marker where
  | openGroup (level offset : Nat)
  | openBracket (level offset : Nat)
  | openBound (offset : Nat)
  | bar (offset : Nat)
deriving DecidableEq, Repr

def Marker.offset : Marker → Nat
  | openGroup _ offset | openBracket _ offset | openBound offset | bar offset => offset

inductive Item where
  | part (p : Part)
  | marker (m : Marker)

namespace Item

def marker? : Item → Option Marker
  | part _ => none
  | marker m => some m

def unit? : Item → Option CodeUnit
  | part ⟨.literal (.unit u), _⟩ => some u
  | _ => none

end Item

/-- A stack, and the record of the trees on it. -/
abbrev Reduced := List Item × Sharing

end ExtendedRegex
