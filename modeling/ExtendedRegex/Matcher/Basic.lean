import ExtendedRegex.Limits
import ExtendedRegex.Matcher.Template
import ExtendedRegex.Matcher.Traced
import ExtendedRegex.Pattern.Parse
import ExtendedRegex.Program.Listing
import ExtendedRegex.Program.Lowering
import ExtendedRegex.Search.Explore

/-!
Matchers: compiled patterns, and what can be asked of them. A start anchor holds at the start of the
input only, wherever a search begins.
-/

set_option autoImplicit false
set_option relaxedAutoImplicit false

namespace ExtendedRegex

structure Matcher where
  pattern : Text
  limits : Limits
  tree : Regex
  parse_eq : Regex.parse pattern limits.maxPatternLength = .ok tree
  program : Program
  program_eq : program = tree.compile

namespace Matcher

def ofPattern (pattern : Text) (limits : Limits) : Except SyntaxError Matcher :=
  match h : Regex.parse pattern limits.maxPatternLength with
  | .error e => .error e
  | .ok tree => .ok ⟨pattern, limits, tree, h, tree.compile, rfl⟩

/-- The number of groups besides the whole match. -/
def groupCount (m : Matcher) : Nat := m.program.groupCount - 1

/-- What the making of a matcher logs. -/
def creation (m : Matcher) : List Event :=
  [.compiled m.pattern m.groupCount m.program.code.size, .listed m.program.listing]

/-- The first match at or after an offset. -/
def find (m : Matcher) (input : Text) (origin : Int) : Traced (Option Match) :=
  match m.program.search input origin ⟨some 0, m.limits.maxSteps⟩ with
  | .error e => ⟨[], .error e⟩
  | .ok found => ⟨[.searched origin found], .ok (found.map (.ofFound input))⟩

def test (m : Matcher) (input : Text) : Traced Bool := do
  return (← m.find input 0).isSome

/-- The offset of the first match. -/
def findOffset (m : Matcher) (input : Text) : Traced (Option Int) := do
  return (← m.find input 0).map Match.start

/-- Whether the whole input matches: whether a match that starts with the input can end with it. -/
def matchesWhole (m : Matcher) (input : Text) : Traced Bool :=
  let program := (Regex.cat m.tree .endAnchor).compile
  ⟨[], do return (← program.searchAt input 0 ⟨none, m.limits.maxSteps⟩).isSome⟩

/-- The matches from an offset on, each search starting where the match before it ended; given a
number of matches, no more are searched for once so many have been found. -/
def matchesFrom (m : Matcher) (input : Text) (offset : Int) (most : Option Nat) :
    Traced (List Match) := do
  if offset ≤ input.size then
    match ← m.find input offset with
    | none => return []
    | some found =>
      if offset < found.next ∧ most.all (1 < ·) then
        return found :: (← matchesFrom m input found.next (most.map (· - 1)))
      else return [found]
  else return []
termination_by (input.size + 1 - offset).toNat

/-- The matches of the input from its start on; given a number of matches, at most so many, where a
number below one counts as one. -/
def matchAll (m : Matcher) (input : Text) (most : Option Int) : Traced (List Match) :=
  m.matchesFrom input 0 (most.map Int.toNat)

/-- Copies the input from an offset on, with replacements for the matches in it. -/
def splice (input : Text) (r : Replacement) (written : Text) (offset : Int) : List Match → Text
  | [] => written ++ input.sliceFrom offset
  | found :: rest =>
    splice input r (written ++ input.slice offset found.start ++ r.text found) found.stop rest

/-- Replaces the first match. -/
def replace (m : Matcher) (input : Text) (r : Replacement) : Traced Text := do
  return splice input r #[] 0 (← m.matchAll input (some 1))

def replaceAll (m : Matcher) (input : Text) (r : Replacement) : Traced Text := do
  return splice input r #[] 0 (← m.matchAll input none)

theorem toNat_sub_lt {stop offset offset' : Int} (hstop : offset < stop) (h : offset < offset') :
    (stop - offset').toNat < (stop - offset).toNat := by
  omega

/-- The pieces from offset `last` on, where the next separator is searched for from `offset` on. An
empty match where a piece starts does not separate, nor does one at the end of the input. -/
def piecesFrom (m : Matcher) (input : Text) (last offset : Int) (most : Option Nat) :
    Traced (List Text) := do
  if offset < input.size then
    match ← m.find input offset with
    | none => return [input.sliceFrom last]
    | some found =>
      if input.size ≤ found.start then return [input.sliceFrom last]
      else if found.stop = last then
        if offset < found.start + 1 then piecesFrom m input last (found.start + 1) most
        else return [input.sliceFrom last]
      else if offset < found.next ∧ most.all (1 < ·) then
        return input.slice last found.start ::
          (← piecesFrom m input found.stop found.next (most.map (· - 1)))
      else return [input.slice last found.start]
  else return [input.sliceFrom last]
termination_by (input.size - offset).toNat
decreasing_by
  · exact toNat_sub_lt ‹_› ‹_›
  · exact toNat_sub_lt ‹_› (And.left ‹_›)

/-- The pieces between matches; given a limit that is not negative, only so many. -/
def split (m : Matcher) (input : Text) (limit : Option Int) : Traced (List Text) := do
  let most := limit.bind fun n ↦ if n < 0 then none else some n.toNat
  if most = some 0 then return []
  else if input.isEmpty then return if ← m.test input then [] else [input]
  else m.piecesFrom input 0 0 most

end Matcher

end ExtendedRegex
