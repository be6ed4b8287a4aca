import ExtendedRegex.Program.Basic
import ExtendedRegex.Regex.Basic
import Std.Data.HashMap

/-!
From trees to programs. The work that is left is a list of tasks, so that the depth of a tree does
not matter. A forward branch is left open when it is emitted and filled in when its target is known.
-/

set_option autoImplicit false
set_option relaxedAutoImplicit false

namespace ExtendedRegex

/-- A branch into an operand or past it; a lazy one prefers to pass. -/
def Instr.branch (greedy : Bool) (enter leave : Nat) : Instr :=
  if greedy then split enter leave else split leave enter

/-- Stands at the address of a branch whose targets are not known yet. -/
def Instr.hole : Instr := accept

structure Draft where
  code : Array Instr := #[]
  /-- The numbers of the groups met so far, by label. -/
  groups : Std.HashMap Nat Nat := ∅

namespace Draft

def emit (d : Draft) (i : Instr) : Draft := { d with code := d.code.push i }

def patch (d : Draft) (address : Nat) (i : Instr) : Draft :=
  { d with code := d.code.setIfInBounds address i }

/-- The number of a group: groups are numbered from one in the order they are first met. -/
def number (d : Draft) (label : Nat) : Nat × Draft :=
  match d.groups[label]? with
  | some k => (k, d)
  | none =>
    let k := d.groups.size + 1
    (k, { d with groups := d.groups.insert label k })

end Draft

inductive Task where
  | lower (e : Regex)
  | emit (i : Instr)
  /-- Ends the left branch of an alternative and lowers the right one. -/
  | otherwise (fork : Nat) (right : Regex)
  | closeAlt (fork jump : Nat)
  | closeOpt (fork : Nat) (greedy : Bool)
  | closeStar (fork : Nat) (greedy : Bool)
  | closePlus (body : Nat) (greedy : Bool)

namespace Task

/-- Bounds the tasks that a task still causes, itself included. -/
def weight : Task → Nat
  | lower e => 4 * e.nodeCount
  | otherwise _ right => 4 * right.nodeCount + 3
  | emit _ | closeAlt _ _ | closeOpt _ _ | closeStar _ _ | closePlus _ _ => 1

end Task

/-- Carries out the tasks in order. -/
def Draft.run (d : Draft) : List Task → Draft
  | [] => d
  | .emit i :: tasks => run (d.emit i) tasks
  | .lower .empty :: tasks => run d tasks
  | .lower .any :: tasks => run (d.emit .any) tasks
  | .lower (.literal l) :: tasks => run (d.emit (.literal l)) tasks
  | .lower (.oneOf set) :: tasks => run (d.emit (.oneOf set.tree)) tasks
  | .lower .startAnchor :: tasks => run (d.emit .startAnchor) tasks
  | .lower .endAnchor :: tasks => run (d.emit .endAnchor) tasks
  | .lower (.cat left right) :: tasks => run d (.lower left :: .lower right :: tasks)
  | .lower (.alt left right) :: tasks =>
    let fork := d.code.size
    run (d.emit .hole) (.lower left :: .otherwise fork right :: tasks)
  | .lower (.opt inner greedy) :: tasks =>
    let fork := d.code.size
    run (d.emit .hole) (.lower inner :: .closeOpt fork greedy :: tasks)
  | .lower (.star inner greedy) :: tasks =>
    let fork := d.code.size
    run (d.emit .hole) (.lower inner :: .closeStar fork greedy :: tasks)
  | .lower (.plus inner greedy) :: tasks =>
    let body := d.code.size
    run d (.lower inner :: .closePlus body greedy :: tasks)
  | .lower (.group label inner) :: tasks =>
    let (k, d) := d.number label
    run (d.emit (.save (2 * k))) (.lower inner :: .emit (.save (2 * k + 1)) :: tasks)
  | .otherwise fork right :: tasks =>
    let jump := d.code.size
    run (d.emit .hole) (.lower right :: .closeAlt fork jump :: tasks)
  | .closeAlt fork jump :: tasks =>
    let next := d.code.size
    run ((d.patch fork (.split (fork + 1) (jump + 1))).patch jump (.jump next)) tasks
  | .closeOpt fork greedy :: tasks =>
    let next := d.code.size
    run (d.patch fork (.branch greedy (fork + 1) next)) tasks
  | .closeStar fork greedy :: tasks =>
    let next := d.code.size + 1
    run ((d.emit (.jump fork)).patch fork (.branch greedy (fork + 1) next)) tasks
  | .closePlus body greedy :: tasks =>
    let next := d.code.size + 1
    run (d.emit (.branch greedy body next)) tasks
termination_by tasks => total (tasks.map Task.weight)
decreasing_by
  all_goals simp only [List.map_cons, total_cons, Task.weight, Regex.nodeCount]; omega

/-- The program of a tree. The whole match is group zero, around everything else. -/
def Regex.compile (e : Regex) : Program :=
  let d := Draft.run {} [.emit (.save 0), .lower e, .emit (.save 1), .emit .accept]
  ⟨d.code, d.groups.size + 1⟩

end ExtendedRegex
