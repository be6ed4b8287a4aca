import ExtendedRegex.CodeSet.Tree
import ExtendedRegex.Text.Literal

/-!
Programs: addressed instructions for matching a subject. Addresses are indices into the code.
-/

set_option autoImplicit false
set_option relaxedAutoImplicit false

namespace ExtendedRegex

inductive Instr where
  | literal (l : Literal)
  | any
  | oneOf (tree : RangeTree)
  /-- Goes on at the first address, and at the second one if that fails. -/
  | split (primary secondary : Nat)
  | jump (target : Nat)
  | save (slot : Nat)
  | startAnchor
  | endAnchor
  | accept
deriving Repr

structure Program where
  code : Array Instr
  /-- The number of groups, the whole match among them. Group `k` saves its ends in the slots `2 * k`
  and `2 * k + 1`. -/
  groupCount : Nat
deriving Repr

end ExtendedRegex
