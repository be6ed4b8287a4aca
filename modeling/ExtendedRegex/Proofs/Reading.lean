import ExtendedRegex.Pattern.Parse
import ExtendedRegex.Proofs.Sizes

/-!
Single steps of the reading of a pattern, for callers that know which units come next: the token
that is read, what it does to the stack, and where the reading goes on.
-/

set_option autoImplicit false
set_option relaxedAutoImplicit false

namespace ExtendedRegex

theorem exists_of_bind_eq_ok {ε α β : Type} {x : Except ε α} {f : α → Except ε β} {b : β}
    (h : x >>= f = .ok b) : ∃ a, x = .ok a ∧ f a = .ok b := by
  cases x with
  | error flaw => cases h
  | ok a => exact ⟨a, rfl, h⟩

/-! ### Units that come next -/

namespace Text

variable {pattern : Text} {offset : Nat} {u : CodeUnit} {units rest : List CodeUnit}

theorem getElem?_of_drop (h : pattern.toList.drop offset = u :: rest) :
    pattern[offset]? = some u := by
  rw [← Array.getElem?_toList, ← List.head?_drop, h, List.head?_cons]

theorem drop_of_getElem? (h : pattern[offset]? = some u) :
    pattern.toList.drop offset = u :: pattern.toList.drop (offset + 1) := by
  obtain ⟨hoffset, rfl⟩ := Array.getElem?_eq_some_iff.mp h
  exact List.drop_eq_getElem_cons _

theorem lt_size_of_drop (h : pattern.toList.drop offset = u :: rest) : offset < pattern.size :=
  (Array.getElem?_eq_some_iff.mp (getElem?_of_drop h)).1

theorem drop_add_of_drop (h : pattern.toList.drop offset = units ++ rest) :
    pattern.toList.drop (offset + units.length) = rest := by
  rw [← List.drop_drop, h, List.drop_left]

theorem drop_succ_of_drop (h : pattern.toList.drop offset = u :: rest) :
    pattern.toList.drop (offset + 1) = rest := by
  have hunits : pattern.toList.drop offset = [u] ++ rest := h
  exact drop_add_of_drop hunits

end Text

theorem Mode.mem_special (mode : Mode) {u : CodeUnit} {kind : Token.Kind}
    (h : mode.special.lookup u = some kind) : (u, kind) ∈ mode.special := by
  obtain ⟨before, behind, heq, -⟩ := List.lookup_eq_some_iff.mp h
  simp [heq]

/-- A unit as it is written in a mode: behind a backslash if it has a meaning of its own there. -/
def Mode.write (mode : Mode) (u : CodeUnit) : List CodeUnit :=
  if mode.escapes u then [('\\' : CodeUnit), u] else [u]

theorem Mode.exists_write (mode : Mode) (u : CodeUnit) : ∃ v units, mode.write u = v :: units := by
  rw [write]
  split <;> exact ⟨_, _, rfl⟩

namespace Token

variable {pattern : Text} {mode : Mode} {offset : Nat} {u v : CodeUnit} {rest : List CodeUnit}
  {kind : Kind} {b : Builtin} {negated : Bool}

theorem next_special (h : pattern.toList.drop offset = u :: rest) (hslash : u ≠ '\\')
    (hu : mode.special.lookup u = some kind) :
    next pattern mode offset = .ok ⟨kind, offset, offset + 1⟩ := by
  rw [next, Text.getElem?_of_drop h]
  dsimp only
  rw [if_neg hslash, hu, Option.getD_some]

theorem next_unit (h : pattern.toList.drop offset = u :: rest) (hslash : u ≠ '\\')
    (hu : mode.special.lookup u = none) :
    next pattern mode offset = .ok ⟨.unit u, offset, offset + 1⟩ := by
  rw [next, Text.getElem?_of_drop h]
  dsimp only
  rw [if_neg hslash, hu, Option.getD_none]

theorem next_escaped (h : pattern.toList.drop offset = ('\\' : CodeUnit) :: v :: rest)
    (hv : mode.escapes v) : next pattern mode offset = .ok ⟨.unit v, offset, offset + 2⟩ := by
  have hv' := Text.getElem?_of_drop (Text.drop_succ_of_drop h)
  rw [next, Text.getElem?_of_drop h]
  dsimp only
  rw [if_pos rfl, hv']
  dsimp only
  rw [if_pos hv]

theorem next_builtin (h : pattern.toList.drop offset = ('\\' : CodeUnit) :: v :: rest)
    (hv : mode.escapes v = false) (hname : builtinNames.lookup v = some (b, negated)) :
    next pattern mode offset = .ok ⟨.builtin b negated, offset, offset + 2⟩ := by
  have hv' := Text.getElem?_of_drop (Text.drop_succ_of_drop h)
  rw [next, Text.getElem?_of_drop h]
  dsimp only
  rw [if_pos rfl, hv']
  dsimp only
  rw [hv, hname]
  rfl

/-- A unit that has a meaning of its own is written with a backslash, and read as itself. -/
theorem next_write (h : pattern.toList.drop offset = mode.write u ++ rest) :
    next pattern mode offset = .ok ⟨.unit u, offset, offset + (mode.write u).length⟩ := by
  rw [Mode.write] at h ⊢
  split at h
  · next hescapes =>
    rw [if_pos hescapes]
    exact next_escaped h hescapes
  · next hescapes =>
    rw [if_neg hescapes]
    simp only [Mode.escapes, Bool.or_eq_true, decide_eq_true_eq, not_or, Bool.not_eq_true,
      Option.isSome_eq_false_iff, Option.isNone_iff_eq_none] at hescapes
    exact next_unit h hescapes.1 hescapes.2

/-- What a token is that is read at an offset: the end of the pattern, a backslash with the unit
behind it, or a single unit. -/
inductive StandsAt (pattern : Text) (mode : Mode) (offset : Nat) : Token → Prop where
  | endOfPattern (hend : pattern[offset]? = none) :
      StandsAt pattern mode offset ⟨.endOfPattern, offset, offset⟩
  | escaped {v : CodeUnit} (hslash : pattern[offset]? = some ('\\' : CodeUnit))
      (hv : pattern[offset + 1]? = some v) (hescapes : mode.escapes v = true) :
      StandsAt pattern mode offset ⟨.unit v, offset, offset + 2⟩
  | builtin {v : CodeUnit} {b : Builtin} {negated : Bool}
      (hslash : pattern[offset]? = some ('\\' : CodeUnit)) (hv : pattern[offset + 1]? = some v)
      (hname : builtinNames.lookup v = some (b, negated)) :
      StandsAt pattern mode offset ⟨.builtin b negated, offset, offset + 2⟩
  | special {u : CodeUnit} {kind : Kind} (hu : pattern[offset]? = some u) (hslash : u ≠ '\\')
      (hkind : mode.special.lookup u = some kind) :
      StandsAt pattern mode offset ⟨kind, offset, offset + 1⟩
  | unit {u : CodeUnit} (hu : pattern[offset]? = some u) (hslash : u ≠ '\\')
      (hplain : mode.special.lookup u = none) :
      StandsAt pattern mode offset ⟨.unit u, offset, offset + 1⟩

theorem standsAt_of_next {t : Token} (h : next pattern mode offset = .ok t) :
    StandsAt pattern mode offset t := by
  rw [next] at h
  split at h
  · next hend =>
    cases h
    exact .endOfPattern hend
  · next u hu =>
    split at h
    · next hslash =>
      subst hslash
      split at h
      · cases h
      · next v hv =>
        split at h
        · next hescapes =>
          cases h
          exact .escaped hu hv hescapes
        · split at h
          · next hname =>
            cases h
            exact .builtin hu hv hname
          · cases h
    · next hslash =>
      cases h
      cases hlookup : mode.special.lookup u with
      | none => exact .unit hu hslash hlookup
      | some kind => exact .special hu hslash hlookup

/-- The offset behind a token and its modifier. -/
def behind (pattern : Text) (t : Token) : Nat :=
  if t.modified pattern then t.stop + 1 else t.stop

theorem modified_of_none {t : Token} (h : t.kind.modifier? = none) :
    t.modified pattern = false := by
  rw [modified, h]

theorem behind_of_none {t : Token} (h : t.kind.modifier? = none) : t.behind pattern = t.stop := by
  rw [behind, modified_of_none h]
  rfl

theorem modified_eq {t : Token} (h : pattern.toList.drop t.stop = rest)
    (hu : t.kind.modifier? = some u) : t.modified pattern = (rest.head? == some u) := by
  rw [modified, hu]
  dsimp only
  rw [raw, ← Array.getElem?_toList, ← List.head?_drop, h]
  cases rest with
  | nil => rfl
  | cons v rest =>
    rw [Bool.eq_iff_iff]
    simp

end Token

/-! ### Steps -/

/-- The tree that a token stands for by itself. A closing bracket or brace that has nothing to close
is a unit like others. -/
def Mode.leaf? (mode : Mode) : Token.Kind → Option Regex
  | .unit u => some (.literal (.unit u))
  | .any => some .any
  | .builtin b negated => some (.oneOf (if negated then b.set.complement else b.set))
  | .startAnchor => some .startAnchor
  | .endAnchor => some .endAnchor
  | .closeBracket =>
    match mode with
    | .bracket _ _ => none
    | .normal | .bound => some (.literal (.unit ']'))
  | .closeBound =>
    match mode with
    | .bound => none
    | .normal | .bracket _ _ => some (.literal (.unit '}'))
  | .endOfPattern | .quantifier _ | .bar | .openGroup | .closeGroup | .openBracket | .openBound => none

theorem Mode.operands_leaf {mode : Mode} {kind : Token.Kind} {tree : Regex}
    (h : mode.leaf? kind = some tree) : tree.operands = [] := by
  cases kind with
  | unit | any | builtin | startAnchor | endAnchor =>
    cases h
    rfl
  | closeBracket | closeBound =>
    cases mode <;> cases h <;> rfl
  | endOfPattern | quantifier | bar | openGroup | closeGroup | openBracket | openBound => cases h

namespace ReadState

/-- What a token can do to a state. -/
inductive Reaction (s : ReadState) (sharing : Sharing) (t : Token) (modified : Bool) :
    ReadState → Sharing → Prop
  | stay (hkind : t.kind = .endOfPattern) : Reaction s sharing t modified s sharing
  | leaf {tree : Regex} (htree : s.mode.leaf? t.kind = some tree) :
    Reaction s sharing t modified (s.pushTree tree) sharing
  | quantify {q : Quantifier} {stack : List Item} {sharing' : Sharing}
    (hkind : t.kind = .quantifier q)
    (hquantify : quantify q (!modified) t.start s.stack sharing = .ok (stack, sharing')) :
    Reaction s sharing t modified { s with stack } sharing'
  | bar {stack : List Item} {sharing' : Sharing} (hkind : t.kind = .bar)
    (hclose : closeBranch s.level none s.stack sharing = .ok (stack, sharing')) :
    Reaction s sharing t modified { s with stack := .marker (.bar t.start) :: stack } sharing'
  | openGroup (hkind : t.kind = .openGroup) (hlevel : s.level < maxNestingDepth) :
    Reaction s sharing t modified
      { s.push (.marker (.openGroup s.level t.start)) with level := s.level + 1 } sharing
  | closeGroup {stack : List Item} {sharing' : Sharing} (hkind : t.kind = .closeGroup)
    (hclose : closeGroup s.level t.start none s.stack sharing = .ok (stack, sharing')) :
    Reaction s sharing t modified { s with stack, level := s.level - 1 } sharing'
  | openBracket (hkind : t.kind = .openBracket) (hlevel : s.level < maxNestingDepth) :
    Reaction s sharing t modified
      { s.push (.marker (.openBracket s.level t.start)) with
        level := s.level + 1, mode := .bracket modified s.mode } sharing
  | closeBracket {negated : Bool} {outer : Mode} {stack : List Item}
    (hkind : t.kind = .closeBracket) (hmode : s.mode = .bracket negated outer)
    (hclose : closeBracket negated s.level t.start s.stack = .ok stack) :
    Reaction s sharing t modified { s with stack, mode := outer, level := s.level - 1 } sharing
  | openBound (hkind : t.kind = .openBound) :
    Reaction s sharing t modified
      { s.push (.marker (.openBound t.start)) with mode := .bound } sharing
  | closeBound {stack : List Item} {sharing' : Sharing} (hkind : t.kind = .closeBound)
    (hmode : s.mode = .bound)
    (hclose : closeBound t.start s.stack sharing = .ok (stack, sharing')) :
    Reaction s sharing t modified { s with stack, mode := .normal } sharing'

variable {pattern : Text} {s s' : ReadState} {sharing sharing' : Sharing} {t : Token}

theorem run_of_step (h : s.offset < pattern.size)
    (hs : s.step pattern sharing = .ok (s', sharing')) :
    run pattern s sharing = run pattern s' sharing' := by
  rw [run, dif_pos h]
  split
  · next flaw hflaw =>
    rw [hs] at hflaw
    cases hflaw
  · next hstep =>
    rw [hs] at hstep
    cases hstep
    rfl

theorem run_of_size_le (h : pattern.size ≤ s.offset) :
    run pattern s sharing = .ok (s, sharing) := by
  rw [run, dif_neg (Nat.not_lt.mpr h)]

theorem run_of_step_error {flaw : Flaw} (h : s.offset < pattern.size)
    (hs : s.step pattern sharing = .error flaw) : run pattern s sharing = .error flaw := by
  rw [run, dif_pos h]
  split
  · next flaw' hflaw => exact hflaw.symm.trans hs
  · next hstep =>
    rw [hs] at hstep
    cases hstep

/-- The reading goes on behind the next token, unless what the token does to the stack fails. -/
theorem run_bind_of_next (h : s.offset < pattern.size)
    (ht : Token.next pattern s.mode s.offset = .ok t) :
    run pattern s sharing = s.react sharing t (t.modified pattern) >>= fun (s', sharing') ↦
      run pattern { s' with offset := t.behind pattern } sharing' := by
  have hstep : s.step pattern sharing = s.react sharing t (t.modified pattern) >>=
      fun (s', sharing') ↦ .ok ({ s' with offset := t.behind pattern }, sharing') := by
    simp only [step, ht, bind, Except.bind, pure, Except.pure, Token.behind]
  cases hreact : s.react sharing t (t.modified pattern) with
  | error flaw =>
    rw [hreact] at hstep
    exact run_of_step_error h hstep
  | ok r =>
    rw [hreact] at hstep
    exact run_of_step h hstep

/-- The reading goes on behind the next token, with what the token has done to the stack. -/
theorem run_of_next (h : s.offset < pattern.size)
    (ht : Token.next pattern s.mode s.offset = .ok t)
    (hreact : s.react sharing t (t.modified pattern) = .ok (s', sharing')) :
    run pattern s sharing = run pattern { s' with offset := t.behind pattern } sharing' := by
  rw [run_bind_of_next h ht, hreact]
  rfl

theorem exists_of_step (h : s.step pattern sharing = .ok (s', sharing')) :
    ∃ t s₁, Token.next pattern s.mode s.offset = .ok t ∧
      s.react sharing t (t.modified pattern) = .ok (s₁, sharing') ∧
      s' = { s₁ with offset := t.behind pattern } := by
  obtain ⟨t, ht, h⟩ := exists_of_bind_eq_ok h
  obtain ⟨⟨s₁, sharing₁⟩, hreact, h⟩ := exists_of_bind_eq_ok h
  obtain ⟨rfl, rfl⟩ := Prod.mk.inj (Except.ok.inj h)
  exact ⟨t, s₁, ht, hreact, rfl⟩

theorem eq_of_enter {m : Marker} (h : s.enter m = .ok s') :
    s.level < maxNestingDepth ∧ s' = { s.push (.marker m) with level := s.level + 1 } := by
  rw [enter] at h
  split at h
  · cases h
  · next hlevel =>
    cases h
    exact ⟨Nat.not_le.mp hlevel, rfl⟩

theorem reaction_of_react {modified : Bool}
    (h : s.react sharing t modified = .ok (s', sharing')) :
    Reaction s sharing t modified s' sharing' := by
  cases hkind : t.kind with
  | endOfPattern =>
    simp only [react, hkind] at h
    cases h
    exact .stay hkind
  | unit | any | startAnchor | endAnchor | builtin =>
    simp only [react, hkind] at h
    cases h
    exact .leaf (by rw [hkind]; rfl)
  | quantifier q =>
    simp only [react, hkind] at h
    obtain ⟨⟨stack, sharing₁⟩, hquantify, h⟩ := exists_of_bind_eq_ok h
    cases h
    exact .quantify hkind hquantify
  | bar =>
    simp only [react, hkind] at h
    obtain ⟨⟨stack, sharing₁⟩, hclose, h⟩ := exists_of_bind_eq_ok h
    cases h
    exact .bar hkind hclose
  | openGroup =>
    simp only [react, hkind] at h
    obtain ⟨inner, henter, h⟩ := exists_of_bind_eq_ok h
    obtain ⟨hlevel, rfl⟩ := eq_of_enter henter
    cases h
    exact .openGroup hkind hlevel
  | closeGroup =>
    simp only [react, hkind] at h
    obtain ⟨⟨stack, sharing₁⟩, hclose, h⟩ := exists_of_bind_eq_ok h
    cases h
    exact .closeGroup hkind hclose
  | openBracket =>
    simp only [react, hkind] at h
    obtain ⟨inner, henter, h⟩ := exists_of_bind_eq_ok h
    obtain ⟨hlevel, rfl⟩ := eq_of_enter henter
    cases h
    exact .openBracket hkind hlevel
  | closeBracket =>
    simp only [react, hkind] at h
    cases hmode : s.mode with
    | bracket negated outer =>
      rw [hmode] at h
      obtain ⟨stack, hclose, h⟩ := exists_of_bind_eq_ok h
      cases h
      exact .closeBracket hkind hmode hclose
    | normal | bound =>
      rw [hmode] at h
      cases h
      exact .leaf (by rw [hkind, hmode]; rfl)
  | openBound =>
    simp only [react, hkind] at h
    cases h
    exact .openBound hkind
  | closeBound =>
    simp only [react, hkind] at h
    cases hmode : s.mode with
    | bound =>
      rw [hmode] at h
      obtain ⟨⟨stack, sharing₁⟩, hclose, h⟩ := exists_of_bind_eq_ok h
      cases h
      exact .closeBound hkind hmode hclose
    | normal | bracket =>
      rw [hmode] at h
      cases h
      exact .leaf (by rw [hkind, hmode]; rfl)

/-- What is left in the end is one part, and it is not too large. -/
theorem exists_of_result {e : Regex} (h : s.result sharing = .ok e) :
    ∃ root sharing', closeBranch s.level none s.stack sharing = .ok ([.part root], sharing') ∧
      (sharing'.measure root.place).1 ≤ maxExpandedSize ∧ root.tree = e := by
  obtain ⟨⟨stack, sharing'⟩, hclose, h⟩ := exists_of_bind_eq_ok h
  dsimp only at h
  split at h
  · cases h
  · next root _ =>
    split at h
    · cases h
    · next hsize => exact ⟨root, sharing', hclose, Nat.not_lt.mp hsize, Except.ok.inj h⟩
  · cases h

/-- One part that is not too large is the result. -/
theorem result_part {p : Part} (h : sharing.Sound) (hp : sharing.Holds p)
    (hsize : p.tree.nodeCount ≤ maxExpandedSize) (offset : Nat) (mode : Mode) (level : Nat) :
    result ⟨offset, mode, level, [.part p]⟩ sharing = .ok p.tree := by
  have hclose : closeBranch level none [.part p] sharing = .ok ([.part p], sharing) := rfl
  have hsmall : ¬ maxExpandedSize < (sharing.measure p.place).1 := by
    rw [(Sharing.measure_spec h hp).1]
    exact Nat.not_lt.mpr hsize
  simp only [result, hclose, bind, Except.bind, pure, Except.pure]
  simp [Item.marker?, hsmall]

end ReadState

/-! ### What reductions leave of the stack -/

section Remainders

variable {level closing : Nat} {acc : Option Part} {stack stack' below : List Item}
  {s s' : Sharing}

/-- The branch that is closed stands above what is left. -/
theorem suffix_of_closeBranch (h : closeBranch level acc stack s = .ok (stack', s')) :
    ∃ p below, stack' = .part p :: below ∧ below <:+ stack := by
  fun_induction closeBranch level acc stack s with
  | case1 =>
    cases h
    exact ⟨_, [], rfl, List.nil_suffix⟩
  | case2 acc p below s p' s₁ hbefore ih =>
    obtain ⟨q, rest, hstack, hsuffix⟩ := ih h
    exact ⟨q, rest, hstack, hsuffix.trans (List.suffix_cons _ _)⟩
  | case3 =>
    cases h
    exact ⟨_, _, rfl, List.suffix_refl _⟩
  | case5 acc bar left below s p' s₁ horElse =>
    cases h
    exact ⟨_, _, rfl, (List.suffix_cons _ _).trans (List.suffix_cons _ _)⟩
  | case4 | case6 => cases h

/-- A group is closed together with its opening. -/
theorem suffix_of_closeGroup (h : closeGroup level closing acc stack s = .ok (stack', s')) :
    ∃ p l offset below, stack' = .part p :: below ∧
      .marker (.openGroup l offset) :: below <:+ stack := by
  fun_induction closeGroup level closing acc stack s with
  | case2 acc p below s p' s₁ hbefore ih =>
    obtain ⟨q, l, offset, rest, hstack, hsuffix⟩ := ih h
    exact ⟨q, l, offset, rest, hstack, hsuffix.trans (List.suffix_cons _ _)⟩
  | case3 =>
    cases h
    exact ⟨_, _, _, _, rfl, List.suffix_refl _⟩
  | case5 acc bar left below s p' s₁ horElse ih =>
    obtain ⟨q, l, offset, rest, hstack, hsuffix⟩ := ih h
    exact ⟨q, l, offset, rest, hstack,
      hsuffix.trans ((List.suffix_cons _ _).trans (List.suffix_cons _ _))⟩
  | case1 | case4 | case6 => cases h

theorem suffix_of_gatherSet {set set' : CodeSet}
    (h : gatherSet level closing set stack = .ok (set', below)) :
    ∃ l offset, .marker (.openBracket l offset) :: below <:+ stack := by
  fun_induction gatherSet level closing set stack with
  | case2 set l offset =>
    cases h
    exact ⟨l, offset, List.suffix_refl _⟩
  | case6 set p rest _ u v hstart htree ih =>
    obtain ⟨l, offset, hsuffix⟩ := ih h
    exact ⟨l, offset, (hsuffix.trans (List.drop_suffix _ _)).trans (List.suffix_cons _ _)⟩
  | case7 _ _ _ _ _ _ _ ih | case8 _ _ _ _ _ _ ih =>
    obtain ⟨l, offset, hsuffix⟩ := ih h
    exact ⟨l, offset, hsuffix.trans (List.suffix_cons _ _)⟩
  | case1 | case3 | case4 | case5 | case9 => cases h

theorem suffix_of_boundUnits {units units' : List CodeUnit} {offset : Nat}
    (h : boundUnits closing units stack = .ok (offset, units', below)) :
    .marker (.openBound offset) :: below <:+ stack := by
  fun_induction boundUnits closing units stack with
  | case1 units u place rest ih => exact (ih h).trans (List.suffix_cons _ _)
  | case2 =>
    cases h
    exact List.suffix_refl _
  | case3 => cases h

end Remainders

/-! ### Whole patterns -/

section Parsing

variable {pattern : Text} {maxLength : Int} {s : ReadState} {sharing : Sharing} {e : Regex}
  {flaw : Flaw}

theorem Regex.parse_eq_ok_iff :
    parse pattern maxLength = .ok e ↔ read pattern maxLength = .ok e := by
  rw [parse]
  cases read pattern maxLength <;> simp

theorem Regex.parse_of_read_error (h : read pattern maxLength = .error flaw) :
    parse pattern maxLength = .error { flaw with pattern } := by
  rw [parse, h]

/-- A tree is what is left when the whole pattern has been read. -/
theorem exists_run_of_parse (h : Regex.parse pattern maxLength = .ok e) :
    ∃ s sharing, ReadState.run pattern {} {} = .ok (s, sharing) ∧ s.result sharing = .ok e := by
  rw [Regex.parse_eq_ok_iff, Regex.read] at h
  split at h
  · cases h
  · obtain ⟨⟨s, sharing⟩, hrun, hresult⟩ := exists_of_bind_eq_ok h
    exact ⟨s, sharing, hrun, hresult⟩

/-- A pattern that can be read to its end has a tree, unless it is too long. -/
theorem parse_iff_of_run (hrun : ReadState.run pattern {} {} = .ok (s, sharing))
    (hresult : s.result sharing = .ok e) (maxLength : Int) :
    Regex.parse pattern maxLength = .ok e ↔ pattern.size ≤ maxLength := by
  rw [Regex.parse_eq_ok_iff, Regex.read]
  by_cases h : maxLength < pattern.size
  · simp [h, bind, Except.bind, throw, throwThe, MonadExceptOf.throw]
  · simp [h, hrun, hresult, Int.not_lt.mp h, bind, Except.bind]

theorem parse_of_run_error (hrun : ReadState.run pattern {} {} = .error flaw)
    (hlength : pattern.size ≤ maxLength) :
    Regex.parse pattern maxLength = .error { flaw with pattern } := by
  refine Regex.parse_of_read_error ?_
  rw [Regex.read, if_neg (Int.not_lt.mpr hlength), hrun]
  rfl

end Parsing

end ExtendedRegex
