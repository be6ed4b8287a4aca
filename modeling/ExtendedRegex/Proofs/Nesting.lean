import ExtendedRegex.Proofs.Openings
import ExtendedRegex.Proofs.RoundTrip

/-!
How what is open is nested on the stack. The mode, the level and the openings without a closing are
read off the items of the stack, and each closing takes away what stands above the last opening,
together with that opening.
-/

set_option autoImplicit false
set_option relaxedAutoImplicit false

namespace ExtendedRegex

/-- A single unit or a set: what a bracket expression is made of. -/
def Regex.elementary : Regex → Bool
  | literal (.unit _) | oneOf _ => true
  | _ => false

theorem Regex.cases_of_elementary {e : Regex} (h : e.elementary = true) :
    (∃ u, e = .literal (.unit u)) ∨ ∃ set, e = .oneOf set := by
  unfold elementary at h
  split at h
  · next u => exact .inl ⟨u, rfl⟩
  · next set => exact .inr ⟨set, rfl⟩
  · cases h

theorem elementary_bracketTree (negated : Bool) (set : CodeSet) :
    (bracketTree negated set).elementary = true := by
  unfold bracketTree
  split <;> rfl

/-- The stacks that belong to a mode, a level and some openings without a closing. The left operand
of a bar stands on the ground of its branch. -/
inductive Nested : Mode → Nat → List Token → List Item → Prop
  | empty : Nested .normal 0 [] []
  | part {level : Nat} {opened : List Token} {below : List Item}
    (h : Nested .normal level opened below) (p : Part) :
    Nested .normal level opened (.part p :: below)
  | bar {level : Nat} {opened : List Token} {below : List Item}
    (h : Nested .normal level opened below) (hbase : Base level below) (p : Part) (offset : Nat) :
    Nested .normal level opened (.marker (.bar offset) :: .part p :: below)
  | group {level : Nat} {opened : List Token} {below : List Item} {t : Token}
    (h : Nested .normal level opened below) (hlevel : level < maxNestingDepth)
    (hkind : t.kind = .openGroup) :
    Nested .normal (level + 1) (t :: opened) (.marker (.openGroup level t.start) :: below)
  | bracket {mode : Mode} {level : Nat} {opened : List Token} {below : List Item} {t : Token}
    (h : Nested mode level opened below) (hmode : mode ≠ .bound) (hlevel : level < maxNestingDepth)
    (hkind : t.kind = .openBracket) (negated : Bool) :
    Nested (.bracket negated mode) (level + 1) (t :: opened)
      (.marker (.openBracket level t.start) :: below)
  | bound {level : Nat} {opened : List Token} {below : List Item} {t : Token}
    (h : Nested .normal level opened below) (hkind : t.kind = .openBound) :
    Nested .bound level (t :: opened) (.marker (.openBound t.start) :: below)
  | elementary {mode : Mode} {level : Nat} {opened : List Token} {below : List Item} {p : Part}
    (h : Nested mode level opened below) (hmode : mode ≠ .normal)
    (hp : p.tree.elementary = true) : Nested mode level opened (.part p :: below)

namespace Nested

variable {mode outer : Mode} {level l closing offset : Nat} {opened : List Token}
  {stack stack' below : List Item} {p : Part} {acc : Option Part} {s s' : Sharing} {negated : Bool}
  {t : Token}

/-! ### The top of the stack -/

theorem below_part (h : Nested mode level opened (.part p :: below)) :
    Nested mode level opened below := by
  cases h with
  | part h | elementary h => exact h

theorem elementary_part (h : Nested mode level opened (.part p :: below)) (hmode : mode ≠ .normal) :
    p.tree.elementary = true := by
  cases h with
  | part => exact absurd rfl hmode
  | elementary _ _ hp => exact hp

/-- A single unit or a set goes on every stack. -/
theorem push (h : Nested mode level opened stack) (hp : p.tree.elementary = true) :
    Nested mode level opened (.part p :: stack) := by
  by_cases hmode : mode = .normal
  · subst hmode
    exact h.part p
  · exact h.elementary hmode hp

theorem level_le (h : Nested mode level opened stack) : level ≤ maxNestingDepth := by
  induction h with
  | empty => exact Nat.zero_le _
  | part _ _ ih | bar _ _ _ _ ih | bound _ _ ih | elementary _ _ _ ih => exact ih
  | group _ hlevel | bracket _ _ hlevel => exact hlevel

/-- Outside of bounds and bracket expressions only groups are open. -/
theorem kind_eq_openGroup (h : Nested .normal level opened stack) (ht : t ∈ opened) :
    t.kind = .openGroup := by
  generalize hmode : Mode.normal = mode at h
  induction h with
  | empty => cases ht
  | part _ _ ih | bar _ _ _ _ ih | elementary _ _ _ ih => exact ih ht hmode
  | group _ _ hkind ih =>
    rcases List.mem_cons.mp ht with rfl | ht
    · exact hkind
    · exact ih ht hmode
  | bracket | bound => cases hmode

/-! ### Closing -/

/-- Outside of bounds and bracket expressions a branch can always be closed. -/
theorem exists_closeBranch (h : Nested .normal level opened stack) (acc : Option Part)
    (s : Sharing) :
    ∃ p below s', closeBranch level acc stack s = .ok (.part p :: below, s') ∧
      Base level below ∧ Nested .normal level opened below := by
  fun_induction closeBranch level acc stack s with
  | case1 acc s => exact ⟨_, [], s, rfl, .inl rfl, h⟩
  | case2 acc p below s p' s₁ hbefore ih => exact ih h.below_part
  | case3 acc l offset below s hlevel =>
    exact ⟨_, _, s, rfl, .inr ⟨l, offset, below, rfl, hlevel⟩, h⟩
  | case4 acc l offset below s hlevel =>
    cases h with
    | group => exact absurd rfl hlevel
  | case5 acc bar left below s p' s₁ horElse =>
    cases h with
    | bar h hbase => exact ⟨p', below, s₁, rfl, hbase, h⟩
  | case6 acc m below s hgroup hbar =>
    cases h with
    | bar => exact absurd rfl (hbar _ _ _ rfl)
    | group => exact absurd rfl (hgroup _ _)

/-- Inside of a bound or a bracket expression no branch can be closed. -/
theorem normal_of_closeBranch (h : Nested mode level opened stack)
    (hclose : closeBranch level acc stack s = .ok (stack', s')) : mode = .normal := by
  fun_induction closeBranch level acc stack s with
  | case1 | case3 | case5 =>
    cases h
    rfl
  | case2 acc p below s p' s₁ hbefore ih => exact ih h.below_part hclose
  | case4 | case6 => cases hclose

/-- A group can be closed if and only if one is open. -/
theorem closeGroup_cases (h : Nested .normal level opened stack) (closing : Nat)
    (acc : Option Part) (s : Sharing) :
    (level = 0 ∧ closeGroup level closing acc stack s = .error ⟨.unbalancedClose, closing⟩) ∨
      ∃ outer t rest p below s', level = outer + 1 ∧ opened = t :: rest ∧ t.kind = .openGroup ∧
        closeGroup level closing acc stack s = .ok (.part p :: below, s') ∧
        Nested .normal outer rest below := by
  fun_induction closeGroup level closing acc stack s with
  | case1 acc s =>
    cases h
    exact .inl ⟨rfl, rfl⟩
  | case2 acc p below s p' s₁ hbefore ih => exact ih h.below_part
  | case3 acc l offset below s hlevel p' s₁ hwrap =>
    cases h with
    | group h _ hkind => exact .inr ⟨_, _, _, p', below, s₁, rfl, rfl, hkind, rfl, h⟩
  | case4 acc l offset below s hlevel =>
    cases h with
    | group => exact absurd rfl hlevel
  | case5 acc bar left below s p' s₁ horElse ih =>
    cases h with
    | bar h => exact ih h
  | case6 acc m below s hgroup hbar =>
    cases h with
    | bar => exact absurd rfl (hbar _ _ _ rfl)
    | group => exact absurd rfl (hgroup _ _)

theorem drop_range {u : CodeUnit} (h : Nested mode level opened stack)
    (hstart : rangeStart? stack = some u) : Nested mode level opened (stack.drop 2) := by
  match stack with
  | [] | [_] => cases hstart
  | item :: item' :: below =>
    rw [rangeStart?] at hstart
    split at hstart
    · next hhyphen =>
      cases item with
      | marker => cases hhyphen
      | part =>
        cases item' with
        | marker => cases hstart
        | part => exact h.below_part.below_part
    · cases hstart

/-- A bracket expression can be closed unless one of its ranges is malformed. -/
theorem gatherSet_cases (h : Nested (.bracket negated outer) level opened stack) (closing : Nat)
    (set : CodeSet) :
    (∃ offset, gatherSet level closing set stack = .error ⟨.malformedRange, offset⟩) ∨
      ∃ l t rest set' below, level = l + 1 ∧ opened = t :: rest ∧ t.kind = .openBracket ∧
        gatherSet level closing set stack = .ok (set', below) ∧ Nested outer l rest below := by
  fun_induction gatherSet level closing set stack with
  | case1 => cases h
  | case2 set l offset below hlevel =>
    cases h with
    | bracket h _ _ hkind => exact .inr ⟨_, _, _, set, below, rfl, rfl, hkind, rfl, h⟩
  | case3 set l offset below hlevel =>
    cases h with
    | bracket => exact absurd rfl hlevel
  | case4 set m below hbracket =>
    cases h with
    | bracket => exact absurd rfl (hbracket _ _)
  | case5 set p below offset hleading => exact .inl ⟨_, rfl⟩
  | case6 set p below _ u v hstart htree ih => exact ih (h.below_part.drop_range hstart)
  | case7 set p below _ u _ htree ih | case8 set p below _ t htree ih => exact ih h.below_part
  | case9 set p below _ hset hrange hunit =>
    rcases Regex.cases_of_elementary (h.elementary_part (by simp)) with ⟨u, htree⟩ | ⟨set', htree⟩
    · cases hstart : rangeStart? below with
      | none => exact (hunit u htree hstart).elim
      | some v => exact (hrange u v htree hstart).elim
    · exact (hset set' htree).elim

theorem closeBracket_cases (h : Nested (.bracket negated outer) level opened stack)
    (closing : Nat) :
    (∃ offset, closeBracket negated level closing stack = .error ⟨.malformedRange, offset⟩) ∨
      ∃ l t rest below, level = l + 1 ∧ opened = t :: rest ∧ t.kind = .openBracket ∧
        closeBracket negated level closing stack = .ok below ∧ Nested outer l rest below := by
  rcases h.gatherSet_cases closing .empty with ⟨offset, hgather⟩ |
    ⟨l, t, rest, set, below, hlevel, hopened, hkind, hgather, hbelow⟩
  · refine .inl ⟨offset, ?_⟩
    rw [closeBracket, hgather]
    rfl
  · have hresult : Nested outer l rest
        (if set.isEmpty then below else .part (.leaf (bracketTree negated set)) :: below) := by
      split
      · exact hbelow
      · exact hbelow.push (elementary_bracketTree negated set)
    refine .inr ⟨l, t, rest, _, hlevel, hopened, hkind, ?_, hresult⟩
    rw [closeBracket, hgather]
    rfl

theorem of_boundUnits {units units' : List CodeUnit} (h : Nested .bound level opened stack)
    (hunits : boundUnits closing units stack = .ok (offset, units', below)) :
    ∃ t rest, opened = t :: rest ∧ t.kind = .openBound ∧ Nested .normal level rest below := by
  fun_induction boundUnits closing units stack with
  | case1 units u place below ih => exact ih h.below_part hunits
  | case2 units offset below =>
    cases hunits
    cases h with
    | bound h hkind => exact ⟨_, _, rfl, hkind, h⟩
  | case3 => cases hunits

theorem of_boundOperand (h : Nested .normal level opened stack)
    (hoperand : boundOperand stack = .ok (p, below)) : Nested .normal level opened below := by
  cases stack with
  | nil =>
    cases hoperand
    exact h
  | cons item stack =>
    cases item with
    | part =>
      cases hoperand
      exact h.below_part
    | marker => cases hoperand

theorem of_closeBound (h : Nested .bound level opened stack)
    (hclose : closeBound closing stack s = .ok (stack', s')) :
    ∃ t rest, opened = t :: rest ∧ t.kind = .openBound ∧ Nested .normal level rest stack' := by
  obtain ⟨⟨opening, units, below⟩, hunits, hclose⟩ := exists_of_bind_eq_ok hclose
  obtain ⟨bound, -, hclose⟩ := exists_of_bind_eq_ok hclose
  obtain ⟨⟨operand, below'⟩, hoperand, hclose⟩ := exists_of_bind_eq_ok hclose
  obtain ⟨t, rest, hopened, hkind, hbelow⟩ := h.of_boundUnits hunits
  dsimp only at hclose
  split at hclose
  · cases hclose
  · cases hclose
    exact ⟨t, rest, hopened, hkind, (hbelow.of_boundOperand hoperand).part _⟩

theorem of_quantify {q : Quantifier} {greedy : Bool} (h : Nested .normal level opened stack)
    (hquantify : quantify q greedy offset stack s = .ok (stack', s')) :
    Nested .normal level opened stack' := by
  cases stack with
  | nil => cases hquantify
  | cons item below =>
    cases item with
    | part =>
      cases hquantify
      exact h.below_part.part _
    | marker => cases hquantify

end Nested

/-! ### Reading -/

namespace ReadState

variable {pattern : Text} {s s' : ReadState} {sharing sharing' : Sharing} {t : Token}
  {modified : Bool} {opened : List Token}

theorem elementary_of_leaf {mode : Mode} {kind : Token.Kind} {tree : Regex}
    (hread : mode.Reads kind) (hmode : mode ≠ .normal) (h : mode.leaf? kind = some tree) :
    tree.elementary = true := by
  cases kind with
  | any | startAnchor | endAnchor => exact absurd (hread.eq_normal rfl) hmode
  | unit | builtin =>
    cases h
    rfl
  | closeBracket | closeBound => cases mode <;> cases h <;> rfl
  | endOfPattern | quantifier | bar | openGroup | closeGroup | openBracket | openBound => cases h

theorem nested_leaf {tree : Regex} (hs : Nested s.mode s.level opened s.stack)
    (hread : s.mode.Reads t.kind) (h : s.mode.leaf? t.kind = some tree) :
    Nested s.mode s.level opened (.part (.leaf tree) :: s.stack) := by
  by_cases hmode : s.mode = .normal
  · rw [hmode] at hs ⊢
    exact hs.part _
  · exact hs.elementary hmode (elementary_of_leaf hread hmode h)

/-- A token that stands for a tree leaves open what is open. -/
theorem track_of_leaf {mode : Mode} {level : Nat} {stack : List Item} {tree : Regex}
    (hs : Nested mode level opened stack) (hread : mode.Reads t.kind)
    (h : mode.leaf? t.kind = some tree) : Token.track opened t = opened := by
  refine Token.track_of_neither ?_ fun inner hinner ↦ ?_
  · generalize t.kind = kind at h
    cases kind <;> first | rfl | cases h
  · cases hkind : t.kind with
    | closeBracket =>
      rw [hkind] at h hread
      cases mode with
      | normal => rw [hs.kind_eq_openGroup hinner]; rfl
      | bound => exact absurd rfl (hread.ne_bound (.inr rfl))
      | bracket => cases h
    | closeBound =>
      rw [hkind] at h hread
      cases mode with
      | normal => rw [hs.kind_eq_openGroup hinner]; rfl
      | bound => cases h
      | bracket negated outer => exact absurd rfl (hread.ne_bracket negated outer)
    | closeGroup =>
      rw [hkind] at h
      cases h
    | _ => rfl

theorem Reaction.nested (h : Reaction s sharing t modified s' sharing')
    (hread : s.mode.Reads t.kind) (hs : Nested s.mode s.level opened s.stack) :
    Nested s'.mode s'.level (Token.track opened t) s'.stack := by
  -- Most tokens are read in one mode only, and the mode says what can be on top of the stack.
  cases h with
  | stay hkind =>
    rwa [Token.track_of_neither (by rw [hkind]; rfl) fun _ _ ↦ by rw [hkind]; rfl]
  | leaf htree =>
    rw [track_of_leaf hs hread htree]
    exact nested_leaf hs hread htree
  | quantify hkind hquantify =>
    have hmode : s.mode = .normal := hread.eq_normal (by rw [hkind]; rfl)
    rw [Token.track_of_neither (by rw [hkind]; rfl) fun _ _ ↦ by rw [hkind]; rfl]
    dsimp only
    rw [hmode] at hs ⊢
    exact hs.of_quantify hquantify
  | bar hkind hclose =>
    have hmode : s.mode = .normal := hread.eq_normal (by rw [hkind]; rfl)
    rw [Token.track_of_neither (by rw [hkind]; rfl) fun _ _ ↦ by rw [hkind]; rfl]
    dsimp only
    rw [hmode] at hs ⊢
    obtain ⟨p, below, sharing₁, hclosed, hbase, hbelow⟩ := hs.exists_closeBranch none sharing
    cases hclosed.symm.trans hclose
    exact hbelow.bar hbase p t.start
  | openGroup hkind hlevel =>
    have hmode : s.mode = .normal := hread.eq_normal (by rw [hkind]; rfl)
    rw [Token.track_of_opens (by rw [hkind]; rfl)]
    rw [hmode] at hs
    simpa only [push, hmode] using hs.group hlevel hkind
  | closeGroup hkind hclose =>
    have hmode : s.mode = .normal := hread.eq_normal (by rw [hkind]; rfl)
    dsimp only
    rw [hmode] at hs ⊢
    rcases hs.closeGroup_cases t.start none sharing with ⟨-, hclosed⟩ |
      ⟨outer, inner, rest, p, below, sharing₁, hlevel, rfl, hinner, hclosed, hbelow⟩
    · cases hclosed.symm.trans hclose
    · cases hclosed.symm.trans hclose
      rw [Token.track_of_closes (by rw [hkind]; rfl) (by rw [hkind, hinner]; rfl), hlevel]
      exact hbelow.part p
  | openBracket hkind hlevel =>
    have hmode : s.mode ≠ .bound := hread.ne_bound (.inl hkind)
    rw [Token.track_of_opens (by rw [hkind]; rfl)]
    exact hs.bracket hmode hlevel hkind modified
  | closeBracket hkind hmode hclose =>
    dsimp only
    rw [hmode] at hs
    rcases hs.closeBracket_cases t.start with ⟨offset, hclosed⟩ |
      ⟨l, inner, rest, below, hlevel, rfl, hinner, hclosed, hbelow⟩
    · cases hclosed.symm.trans hclose
    · cases hclosed.symm.trans hclose
      rw [Token.track_of_closes (by rw [hkind]; rfl) (by rw [hkind, hinner]; rfl), hlevel]
      exact hbelow
  | openBound hkind =>
    have hmode : s.mode = .normal := hread.eq_normal (by rw [hkind]; rfl)
    rw [Token.track_of_opens (by rw [hkind]; rfl)]
    rw [hmode] at hs
    exact hs.bound hkind
  | closeBound hkind hmode hclose =>
    rw [hmode] at hs
    obtain ⟨inner, rest, rfl, hinner, hstack⟩ := hs.of_closeBound hclose
    rw [Token.track_of_closes (by rw [hkind]; rfl) (by rw [hkind, hinner]; rfl)]
    exact hstack

/-- The states that the reading of a pattern goes through, each with the tokens read so far. -/
inductive Reached (pattern : Text) : List Token → ReadState → Sharing → Prop
  | start : Reached pattern [] {} {}
  | step {tokens : List Token} {s s' : ReadState} {sharing sharing' : Sharing} {t : Token}
    (h : Reached pattern tokens s sharing) (hoffset : s.offset < pattern.size)
    (ht : Token.next pattern s.mode s.offset = .ok t)
    (hs : s.step pattern sharing = .ok (s', sharing')) :
    Reached pattern (tokens ++ [t]) s' sharing'

variable {tokens : List Token}

theorem Reached.nested (h : Reached pattern tokens s sharing) :
    Nested s.mode s.level (Token.unclosed tokens) s.stack := by
  induction h with
  | start => exact .empty
  | step _ _ ht hs ih =>
    obtain ⟨t, s₁, ht', hreact, rfl⟩ := exists_of_step hs
    cases ht'.symm.trans ht
    rw [Token.unclosed_concat]
    exact (reaction_of_react hreact).nested (Mode.reads_of_next ht) ih

/-- A reading that does not fail reaches the end of the pattern, behind all of its tokens. -/
theorem Reached.run (h : Reached pattern tokens s sharing)
    (hrun : run pattern s sharing = .ok (s', sharing')) :
    Reached pattern (tokens ++ Token.stream pattern s.mode s.offset) s' sharing' ∧
      pattern.size ≤ s'.offset := by
  fun_induction ReadState.run pattern s sharing generalizing tokens with
  | case1 => cases hrun
  | case2 s sharing hoffset s₁ sharing₁ hstep _ ih =>
    obtain ⟨t, s₂, ht, hreact, rfl⟩ := exists_of_step hstep
    rw [Token.stream_of_next hoffset ht, ← (reaction_of_react hreact).mode_eq,
      List.append_cons]
    exact ih (h.step hoffset ht hstep) hrun
  | case3 s sharing hoffset =>
    cases hrun
    rw [Token.stream_of_size_le (Nat.not_lt.mp hoffset), List.append_nil]
    exact ⟨h, Nat.not_lt.mp hoffset⟩

/-- A pattern with a tree leaves nothing open. -/
theorem unclosed_of_result {e : Regex} (hs : Nested s.mode s.level opened s.stack)
    (h : s.result sharing = .ok e) : s.mode = .normal ∧ s.level = 0 ∧ opened = [] := by
  obtain ⟨root, sharing', hclose, -, -⟩ := exists_of_result h
  have hmode := hs.normal_of_closeBranch hclose
  rw [hmode] at hs
  obtain ⟨p, below, sharing₁, hclosed, -, hbelow⟩ := hs.exists_closeBranch none sharing
  cases hclosed.symm.trans hclose
  -- The branch that is closed last stands on the bottom of the stack.
  generalize s.level = level at hbelow
  cases hbelow
  exact ⟨hmode, rfl, rfl⟩

/-! ### Tokens that can fail -/

theorem step_eq (ht : Token.next pattern s.mode s.offset = .ok t) :
    s.step pattern sharing = (s.react sharing t (t.modified pattern)).map fun r ↦
      ({ r.1 with offset := t.behind pattern }, r.2) := by
  simp only [ReadState.step, ht, bind, Except.bind]
  cases s.react sharing t (t.modified pattern) <;> rfl

theorem exists_step_bar (hs : Nested s.mode s.level opened s.stack)
    (ht : Token.next pattern s.mode s.offset = .ok t) (hkind : t.kind = .bar) :
    ∃ s' sharing', s.step pattern sharing = .ok (s', sharing') := by
  have hmode : s.mode = .normal := (Mode.reads_of_next ht).eq_normal (by rw [hkind]; rfl)
  rw [hmode] at hs
  obtain ⟨p, below, sharing₁, hclosed, -, -⟩ := hs.exists_closeBranch none sharing
  rw [step_eq ht]
  simp only [react, hkind, hclosed, bind, Except.bind, pure, Except.pure, Except.map]
  exact ⟨_, _, rfl⟩

theorem step_closeGroup_eq_error_iff (hs : Nested s.mode s.level opened s.stack)
    (ht : Token.next pattern s.mode s.offset = .ok t) (hkind : t.kind = .closeGroup)
    (flaw : Flaw) :
    s.step pattern sharing = .error flaw ↔
      s.level = 0 ∧ flaw = ⟨.unbalancedClose, t.start⟩ := by
  have hmode : s.mode = .normal := (Mode.reads_of_next ht).eq_normal (by rw [hkind]; rfl)
  rw [hmode] at hs
  rw [step_eq ht]
  simp only [react, hkind]
  rcases hs.closeGroup_cases t.start none sharing with ⟨hlevel, hclosed⟩ |
    ⟨outer, inner, rest, p, below, sharing₁, hlevel, -, -, hclosed, -⟩
  · rw [hclosed]
    simp [bind, Except.bind, Except.map, hlevel, eq_comm]
  · rw [hclosed]
    simp [bind, Except.bind, pure, Except.pure, Except.map, hlevel]

theorem fault_eq_of_closeBracket {negated : Bool} {outer : Mode} {flaw : Flaw}
    (hs : Nested s.mode s.level opened s.stack)
    (ht : Token.next pattern s.mode s.offset = .ok t) (hkind : t.kind = .closeBracket)
    (hmode : s.mode = .bracket negated outer) (h : s.step pattern sharing = .error flaw) :
    flaw.fault = .malformedRange := by
  rw [step_eq ht] at h
  simp only [react, hkind, hmode] at h
  rw [hmode] at hs
  rcases hs.closeBracket_cases t.start with ⟨offset, hclosed⟩ |
    ⟨l, inner, rest, below, -, -, -, hclosed, -⟩
  · rw [hclosed] at h
    cases h
    rfl
  · rw [hclosed] at h
    cases h

end ReadState

end ExtendedRegex
