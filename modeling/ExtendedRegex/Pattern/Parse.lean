import ExtendedRegex.Pattern.Bracket
import ExtendedRegex.Pattern.Reduction
import ExtendedRegex.Pattern.Token

/-!
From patterns to trees. Each step reads one token and either puts something on the stack or reduces
what is on top of it; at the end of the pattern one tree must be left.
-/

set_option autoImplicit false
set_option relaxedAutoImplicit false

namespace ExtendedRegex

/-- The unit that changes the meaning of a token it follows. -/
def Token.Kind.modifier? : Token.Kind → Option CodeUnit
  | quantifier _ => some '?'
  | openBracket => some '^'
  | _ => none

/-- Whether a token is followed by its modifier. -/
def Token.modified (pattern : Text) (t : Token) : Bool :=
  match t.kind.modifier? with
  | some u => (raw pattern t.stop).kind = .unit u
  | none => false

/-- Where the reading of a pattern stands. -/
structure ReadState where
  offset : Nat := 0
  mode : Mode := .normal
  /-- The number of groups and bracket expressions that are open. -/
  level : Nat := 0
  stack : List Item := []

namespace ReadState

def push (s : ReadState) (item : Item) : ReadState := { s with stack := item :: s.stack }

def pushTree (s : ReadState) (tree : Regex) : ReadState := s.push (.part (.leaf tree))

/-- Puts an opening on the stack that counts as a level of nesting. -/
def enter (s : ReadState) (m : Marker) : Except Flaw ReadState :=
  if maxNestingDepth ≤ s.level then .error ⟨.nestingTooDeep, m.offset⟩
  else .ok { s.push (.marker m) with level := s.level + 1 }

/-- The effect of a token on everything but the offset. A closing bracket or brace with nothing to
close stands for itself. -/
def react (s : ReadState) (sharing : Sharing) (t : Token) (modified : Bool) :
    Except Flaw (ReadState × Sharing) :=
  match t.kind with
  | .endOfPattern => .ok (s, sharing)
  | .unit u => .ok (s.pushTree (.literal (.unit u)), sharing)
  | .any => .ok (s.pushTree .any, sharing)
  | .builtin b negated =>
    .ok (s.pushTree (.oneOf (if negated then b.set.complement else b.set)), sharing)
  | .startAnchor => .ok (s.pushTree .startAnchor, sharing)
  | .endAnchor => .ok (s.pushTree .endAnchor, sharing)
  | .quantifier q => do
    let (stack, sharing) ← quantify q (!modified) t.start s.stack sharing
    return ({ s with stack }, sharing)
  | .bar => do
    let (stack, sharing) ← closeBranch s.level none s.stack sharing
    return ({ s with stack := .marker (.bar t.start) :: stack }, sharing)
  | .openGroup => do
    let s ← s.enter (.openGroup s.level t.start)
    return (s, sharing)
  | .closeGroup => do
    let (stack, sharing) ← closeGroup s.level t.start none s.stack sharing
    return ({ s with stack, level := s.level - 1 }, sharing)
  | .openBracket => do
    let inner ← s.enter (.openBracket s.level t.start)
    return ({ inner with mode := .bracket modified s.mode }, sharing)
  | .closeBracket =>
    match s.mode with
    | .bracket negated outer => do
      let stack ← closeBracket negated s.level t.start s.stack
      return ({ s with stack, mode := outer, level := s.level - 1 }, sharing)
    | _ => .ok (s.pushTree (.literal (.unit ']')), sharing)
  | .openBound => .ok ({ s.push (.marker (.openBound t.start)) with mode := .bound }, sharing)
  | .closeBound =>
    match s.mode with
    | .bound => do
      let (stack, sharing) ← closeBound t.start s.stack sharing
      return ({ s with stack, mode := .normal }, sharing)
    | _ => .ok (s.pushTree (.literal (.unit '}')), sharing)

/-- Reads one token, with its modifier. -/
def step (pattern : Text) (s : ReadState) (sharing : Sharing) :
    Except Flaw (ReadState × Sharing) := do
  let t ← Token.next pattern s.mode s.offset
  let modified := t.modified pattern
  let (s, sharing) ← s.react sharing t modified
  return ({ s with offset := if modified then t.stop + 1 else t.stop }, sharing)

theorem lt_offset_of_step {pattern : Text} {s s' : ReadState} {sharing sharing' : Sharing}
    (h : s.offset < pattern.size) (hs : s.step pattern sharing = .ok (s', sharing')) :
    s.offset < s'.offset := by
  simp only [step, bind, Except.bind, pure, Except.pure] at hs
  split at hs
  · simp at hs
  · next t ht =>
    have hstop := Token.lt_stop_of_next h ht
    split at hs
    · simp at hs
    · simp only [Except.ok.injEq, Prod.mk.injEq] at hs
      rw [← hs.1]
      simp only
      split <;> omega

/-- Reads tokens to the end of the pattern. -/
def run (pattern : Text) (s : ReadState) (sharing : Sharing) :
    Except Flaw (ReadState × Sharing) :=
  if h : s.offset < pattern.size then
    match hs : s.step pattern sharing with
    | .error flaw => .error flaw
    | .ok (s', sharing') =>
      have := lt_offset_of_step h hs
      run pattern s' sharing'
  else .ok (s, sharing)
termination_by pattern.size - s.offset

/-- The tree that is left on the stack. An opening that is left is reported instead, the lowest one
first. -/
def result (s : ReadState) (sharing : Sharing) : Except Flaw Regex := do
  let (stack, sharing) ← closeBranch s.level none s.stack sharing
  match stack.reverse.findSome? Item.marker?, stack with
  | some m, _ => throw ⟨.malformed, m.offset⟩
  | none, [.part root] =>
    if maxExpandedSize < (sharing.measure root.place).1 then throw ⟨.expansionTooLarge, 0⟩
    return root.tree
  | none, _ => throw ⟨.malformed, 0⟩

end ReadState

/-- The tree of a pattern, or the flaw that is found first. -/
def Regex.read (pattern : Text) (maxLength : Int) : Except Flaw Regex := do
  if maxLength < pattern.size then throw ⟨.patternTooLarge pattern.size maxLength, 0⟩
  let (s, sharing) ← ReadState.run pattern {} {}
  s.result sharing

/-- The tree of a pattern, or the error to report. -/
def Regex.parse (pattern : Text) (maxLength : Int) : Except SyntaxError Regex :=
  match read pattern maxLength with
  | .ok tree => .ok tree
  | .error flaw => .error { flaw with pattern }

end ExtendedRegex
