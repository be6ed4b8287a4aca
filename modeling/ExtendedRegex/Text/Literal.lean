import ExtendedRegex.Text.Basic

/-!
Literals: the texts that are compared with the units of a subject, one unit at a time. Only a text of
one unit can be equal to a unit, so every other literal matches nothing; it is kept as it was written.
-/

set_option autoImplicit false
set_option relaxedAutoImplicit false

namespace ExtendedRegex

inductive Literal where
  | unit (u : CodeUnit)
  /-- A text that no unit is equal to. -/
  | text (t : Text) (size_ne_one : t.size ≠ 1)
deriving DecidableEq, Repr

namespace Literal

def ofText (t : Text) : Literal := if h : t.size = 1 then unit t[0] else text t h

def toText : Literal → Text
  | unit u => #[u]
  | text t _ => t

@[simp] theorem toText_ofText (t : Text) : (ofText t).toText = t := by
  unfold ofText
  split
  · next h =>
    obtain ⟨u, rfl⟩ := Array.size_eq_one_iff.mp h
    rfl
  · rfl

@[simp] theorem ofText_toText (l : Literal) : ofText l.toText = l := by
  cases l with
  | unit u => rfl
  | text t h => simp [ofText, toText, h]

end Literal

end ExtendedRegex
