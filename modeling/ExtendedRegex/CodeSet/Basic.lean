import ExtendedRegex.CodeSet.Range

/-!
Sets of code points as ascending ranges that neither overlap nor touch. A set has one such list of
ranges, so equal sets are equal values.
-/

set_option autoImplicit false
set_option relaxedAutoImplicit false

namespace ExtendedRegex

@[ext] structure CodeSet where
  ranges : Array CodeRange
  separated : ranges.toList.Pairwise CodeRange.Before
deriving DecidableEq, Repr

namespace CodeSet

instance : Membership Int CodeSet := ⟨fun s c ↦ ∃ r ∈ s.ranges, c ∈ r⟩

protected def empty : CodeSet := ⟨#[], by simp⟩

/-- Every code from `minCode` to `maxCode`. -/
def full : CodeSet := ⟨#[⟨minCode, maxCode, by decide⟩], by simp⟩

def insert (s : CodeSet) (r : CodeRange) : CodeSet where
  ranges := (r.insertInto s.ranges.toList).toArray
  separated := r.insertInto_pairwise s.separated

def ofRanges (ranges : List CodeRange) : CodeSet := ranges.foldl insert .empty

def union (s t : CodeSet) : CodeSet := t.ranges.foldl insert s

/-- The codes from `minCode` to `maxCode` outside the set. -/
def complement (s : CodeSet) : CodeSet where
  ranges := (CodeRange.gaps minCode s.ranges.toList).toArray
  separated := CodeRange.gaps_pairwise minCode s.separated

def isEmpty (s : CodeSet) : Bool := s.ranges.isEmpty

/-- The code of a set that holds exactly one. -/
def single? (s : CodeSet) : Option Int :=
  match s.ranges.toList with
  | [r] => if r.lo = r.hi then some r.lo else none
  | _ => none

/-- Binary search among the ranges from `low` up to, but not including, `high`. Of two middle
ranges, the first is tried. -/
def searchBetween (ranges : Array CodeRange) (code : Int) (low high : Nat)
    (bound : high ≤ ranges.size) : Bool :=
  if h : low < high then
    let middle := (low + high - 1) / 2
    let r := ranges[middle]
    if code < r.lo then searchBetween ranges code low middle (by omega)
    else if r.hi < code then searchBetween ranges code (middle + 1) high bound
    else true
  else false
termination_by high - low

def contains (s : CodeSet) (code : Int) : Bool :=
  searchBetween s.ranges code 0 s.ranges.size (Nat.le_refl _)

end CodeSet

end ExtendedRegex
