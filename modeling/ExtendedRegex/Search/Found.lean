import ExtendedRegex.Program.Basic

/-!
What a search ends with: the places that a match has saved, or a budget that is used up.
-/

set_option autoImplicit false
set_option relaxedAutoImplicit false

namespace ExtendedRegex

/-- A part of a subject, from an offset up to, but not including, another. -/
structure Span where
  start : Int
  stop : Int
deriving DecidableEq, Repr

/-- The saved positions, by slot. -/
abbrev Slots := Array (Option Nat)

namespace Slots

/-- The slots of the whole match are there even if no group is. -/
def unset (groupCount : Nat) : Slots := Array.replicate (2 * max groupCount 1) none

def get (slots : Slots) (slot : Nat) : Option Nat := slots[slot]?.join

/-- The span of a group, if both of its ends are saved. -/
def span (slots : Slots) (group : Nat) : Option Span :=
  match slots.get (2 * group), slots.get (2 * group + 1) with
  | some start, some stop => some ⟨start, stop⟩
  | _, _ => none

end Slots

structure Found where
  /-- The first two slots, each as it was saved. -/
  start : Option Nat
  stop : Option Nat
  /-- The spans of all groups, group zero first. -/
  spans : Array (Option Span)
deriving DecidableEq, Repr

def Slots.found (slots : Slots) (groupCount : Nat) : Found :=
  ⟨slots.get 0, slots.get 1, (Array.range groupCount).map slots.span⟩

structure LimitExceeded where
  limit : Int
deriving DecidableEq, Repr

def LimitExceeded.message (e : LimitExceeded) : String :=
  s!"Match step limit exceeded: {e.limit} steps"

end ExtendedRegex
