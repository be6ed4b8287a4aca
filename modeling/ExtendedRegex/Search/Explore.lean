import ExtendedRegex.Search.Found
import ExtendedRegex.Search.StateSet

/-!
Priority search for a match. Jobs wait in the order in which they are to be tried, and a pair of an
address and a position is entered once in a whole search, from all starts together; each entry
counts as a step.
-/

set_option autoImplicit false
set_option relaxedAutoImplicit false

namespace ExtendedRegex

/-- What is executed at an address and a position, with the positions saved on the way there. -/
structure Job where
  address : Nat
  position : Nat
  slots : Slots
deriving DecidableEq, Repr

namespace Job

def consume (j : Job) : Job := { j with address := j.address + 1, position := j.position + 1 }

def pass (j : Job) : Job := { j with address := j.address + 1 }

def jump (j : Job) (target : Nat) : Job := { j with address := target }

def save (j : Job) (slot : Nat) : Job :=
  { j with address := j.address + 1, slots := j.slots.setIfInBounds slot (some j.position) }

/-- The jobs that an instruction leads to, the preferred one first. -/
def next (subject : Text) (anchor : Int) (j : Job) : Instr → List Job
  | .literal (.unit u) => if subject[j.position]? = some u then [j.consume] else []
  | .literal (.text _ _) => []
  | .any => if j.position < subject.size then [j.consume] else []
  | .oneOf tree =>
    match subject[j.position]? with
    | some u => if tree.contains u.code then [j.consume] else []
    | none => []
  | .split primary secondary => [j.jump primary, j.jump secondary]
  | .jump target => [j.jump target]
  | .save slot => [j.save slot]
  | .startAnchor => if (j.position : Int) = anchor then [j.pass] else []
  | .endAnchor => if j.position = subject.size then [j.pass] else []
  | .accept => []

end Job

structure Explored where
  /-- The slots of the first job that was accepted. -/
  slots : Option Slots
  seen : StateSet
  steps : Nat

/-- The error that a number of steps causes, if there is a limit and it is below that number. -/
def exceeded? (limit : Option Int) (steps : Nat) : Option LimitExceeded :=
  limit.bind fun most ↦ if most < (steps : Int) then some ⟨most⟩ else none

/-- Executes the jobs, and those they lead to before all others, until one is accepted. -/
def Program.explore (p : Program) (subject : Text) (anchor : Int) (limit : Option Int)
    (seen : StateSet) (steps : Nat) : List Job → Except LimitExceeded Explored
  | [] => .ok ⟨none, seen, steps⟩
  | j :: jobs =>
    match _h : seen.visit j.address j.position with
    | (false, seen') => explore p subject anchor limit seen' steps jobs
    | (true, seen') =>
      match exceeded? limit (steps + 1), p.code[j.address]? with
      | some e, _ => .error e
      | none, none => explore p subject anchor limit seen' (steps + 1) jobs
      | none, some .accept => .ok ⟨some j.slots, seen', steps + 1⟩
      | none, some i =>
        explore p subject anchor limit seen' (steps + 1) (j.next subject anchor i ++ jobs)
termination_by jobs => (seen.free.length, jobs.length)
decreasing_by
  · rw [StateSet.eq_of_not_visit _h]
    exact Prod.Lex.right _ (by simp)
  · exact Prod.Lex.left _ _ (StateSet.length_free_lt_of_visit _h)
  · exact Prod.Lex.left _ _ (StateSet.length_free_lt_of_visit _h)

/-- The pairs that a search over a subject can enter, none of them entered yet. -/
def Program.states (p : Program) (subject : Text) : StateSet :=
  .ofSize p.code.size (subject.size + 1)

def Program.start (p : Program) (position : Nat) : Job := ⟨0, position, .unset p.groupCount⟩

/-- Tries one start after another, up to the end of the subject. -/
def Program.scan (p : Program) (subject : Text) (anchor : Int) (limit : Option Int)
    (seen : StateSet) (steps : Nat) (position : Nat) : Except LimitExceeded (Option Slots) :=
  if subject.size < position then .ok none
  else
    match p.explore subject anchor limit seen steps [p.start position] with
    | .error e => .error e
    | .ok ⟨some slots, _, _⟩ => .ok (some slots)
    | .ok ⟨none, seen, steps⟩ => scan p subject anchor limit seen steps (position + 1)
termination_by subject.size + 1 - position

structure SearchOptions where
  /-- The only position where a start anchor holds; without one, where the search starts. -/
  anchor : Option Int := none
  maxSteps : Option Int := none
deriving DecidableEq, Repr

/-- The leftmost match at or after an offset. No match starts outside the subject. -/
def Program.search (p : Program) (subject : Text) (origin : Int) (options : SearchOptions) :
    Except LimitExceeded (Option Found) := do
  if origin < 0 ∨ (subject.size : Int) < origin then return none
  let anchor := options.anchor.getD origin
  let slots ← p.scan subject anchor options.maxSteps (p.states subject) 0 origin.toNat
  return slots.map (·.found p.groupCount)

/-- The match that starts at an offset. -/
def Program.searchAt (p : Program) (subject : Text) (position : Int) (options : SearchOptions) :
    Except LimitExceeded (Option Found) := do
  if position < 0 ∨ (subject.size : Int) < position then return none
  let anchor := options.anchor.getD position
  let explored ← p.explore subject anchor options.maxSteps (p.states subject) 0
    [p.start position.toNat]
  return explored.slots.map (·.found p.groupCount)

end ExtendedRegex
