import ExtendedRegex.Regex.Basic
import ExtendedRegex.Text.Quoted

/-!
Trees given as a list of entries that refer to earlier entries by position. An entry that is used
twice is one subtree with two uses, and an entry may name a kind of node that there is none of.
-/

set_option autoImplicit false
set_option relaxedAutoImplicit false

namespace ExtendedRegex

inductive OutlineError where
  | unknownNode (kind : Text)
  | missingEntry (position : Nat)
deriving DecidableEq, Repr

def OutlineError.message : OutlineError → String
  | unknownNode kind => "Regex compile error: unknown node \x7b\"type\":" ++ kind.quoted ++ "\x7d"
  | missingEntry position => s!"no entry before position {position}"

inductive OutlineEntry where
  /-- A node without operands. -/
  | leaf (e : Regex)
  | cat (left right : Nat)
  | alt (left right : Nat)
  | quantified (q : Quantifier) (inner : Nat) (greedy : Bool)
  | group (inner : Nat)
  | sequence (parts : List Nat)
  | unknown (kind : Text)

/-- The trees of the entries so far. A tree is an error if a part of it is one; of several, the
leftmost is kept. -/
abbrev Outline := Array (Except OutlineError Regex)

namespace Outline

def tree (o : Outline) (position : Nat) : Except OutlineError Regex :=
  o[position]?.getD (.error (.missingEntry position))

/-- A group is labelled by its position. -/
def build (o : Outline) : OutlineEntry → Except OutlineError Regex
  | .leaf e => .ok e
  | .cat left right => return .cat (← o.tree left) (← o.tree right)
  | .alt left right => return .alt (← o.tree left) (← o.tree right)
  | .quantified q inner greedy => return q.apply greedy (← o.tree inner)
  | .group inner => return .group o.size (← o.tree inner)
  | .sequence parts => return .sequence (← parts.mapM o.tree)
  | .unknown kind => .error (.unknownNode kind)

def ofEntries (entries : List OutlineEntry) : Outline :=
  entries.foldl (fun o entry ↦ Array.push o (o.build entry)) #[]

/-- The tree of the last entry. -/
def root (o : Outline) : Except OutlineError Regex := o.tree (o.size - 1)

end Outline

end ExtendedRegex
