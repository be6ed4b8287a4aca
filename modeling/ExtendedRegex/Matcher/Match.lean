import ExtendedRegex.Search.Found

/-!
Matches as views of the input: the texts of the whole match and of its groups, and what is around
them. The spans of a match are cut from the input as they are.
-/

set_option autoImplicit false
set_option relaxedAutoImplicit false

namespace ExtendedRegex

structure Match where
  input : Text
  spans : Array (Option Span)
deriving DecidableEq, Repr

namespace Match

def ofFound (input : Text) (found : Found) : Match := ⟨input, found.spans⟩

/-- The span of a group that exists and is set. -/
def span (m : Match) (group : Int) : Option Span :=
  if group < 0 then none else m.spans[group.toNat]?.join

def group (m : Match) (group : Int) : Option Text :=
  (m.span group).map fun s ↦ m.input.slice s.start s.stop

/-- Without a span for the whole match, an offset before the input. -/
def start (m : Match) : Int := ((m.span 0).map Span.start).getD (-1)

def stop (m : Match) : Int := ((m.span 0).map Span.stop).getD (-1)

def matched (m : Match) : Text := m.input.slice m.start m.stop

/-- The number of groups besides the whole match. -/
def groupCount (m : Match) : Int := m.spans.size - 1

def groups (m : Match) : List (Option Text) :=
  (List.range' 1 (m.spans.size - 1)).map fun k : Nat ↦ m.group k

def before (m : Match) : Text := m.input.slice 0 m.start

def after (m : Match) : Text := m.input.sliceFrom m.stop

/-- Where the search for the next match starts: an empty match is stepped over. -/
def next (m : Match) : Int := if m.stop = m.start then m.stop + 1 else m.stop

end Match

end ExtendedRegex
