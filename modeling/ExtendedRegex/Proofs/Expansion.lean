import ExtendedRegex.Proofs.Layout
import ExtendedRegex.Proofs.StackLabels

/-!
The sizes of trees that are read. While a pattern is read, every part on the stack stands at the
place that has its size, whatever has been repeated, so the check at the end of the pattern is a
check of the whole tree with every repetition written out, and it bounds the program as well.
-/

set_option autoImplicit false
set_option relaxedAutoImplicit false

namespace ExtendedRegex

/-- Every part of a stack stands at a place with the size of its tree. -/
structure Sized (stack : List Item) (s : Sharing) : Prop where
  sound : s.Sound
  holds : ∀ p, .part p ∈ stack → s.Holds p

section Stacks

variable {stack stack' below : List Item} {item : Item} {m : Marker} {p : Part} {s s' : Sharing}
  {e : Regex} {x : Part × Sharing} {level closing : Nat} {acc : Option Part}

theorem Regex.nodeCount_eq_one (h : e.operands = []) : e.nodeCount = 1 := by
  cases e <;> first | rfl | cases h

theorem sized_nil (h : s.Sound) : Sized [] s := ⟨h, fun _ hp ↦ nomatch hp⟩

theorem Sized.rest (h : Sized (item :: below) s) : Sized below s :=
  ⟨h.sound, fun p hp ↦ h.holds p (List.mem_cons_of_mem _ hp)⟩

theorem Sized.top (h : Sized (.part p :: below) s) : s.Holds p := h.holds p List.mem_cons_self

theorem Sized.mark (h : Sized below s) (m : Marker) : Sized (.marker m :: below) s := by
  refine ⟨h.sound, fun p hp ↦ ?_⟩
  rcases List.mem_cons.mp hp with hp | hp
  · cases hp
  · exact h.holds p hp

theorem Sized.part (h : Sized below s) (hp : s.Holds p) : Sized (.part p :: below) s := by
  refine ⟨h.sound, fun q hq ↦ ?_⟩
  rcases List.mem_cons.mp hq with hq | hq
  · obtain rfl := Item.part.inj hq
    exact hp
  · exact h.holds q hq

theorem Sized.leaf (h : Sized below s) (he : e.nodeCount = 1) :
    Sized (.part (.leaf e) :: below) s :=
  h.part (h.sound.holds_leaf he)

theorem Sized.grows (h : Sized stack s) (hs : s.Grows s') : Sized stack s' :=
  ⟨hs.sound, fun p hp ↦ hs.holds p (h.holds p hp)⟩

/-- What is built from parts of a stack can be put on it. -/
theorem Sized.push (h : Sized below s) (hx : s.Makes x e) : Sized (.part x.1 :: below) x.2 :=
  (h.grows hx.grows).part hx.holds

theorem sized_quantify {q : Quantifier} {greedy : Bool} {offset : Nat}
    (h : quantify q greedy offset stack s = .ok (stack', s')) (hs : Sized stack s) :
    Sized stack' s' := by
  cases stack with
  | nil => cases h
  | cons item below =>
    cases item with
    | marker m => cases h
    | part p =>
      cases h
      exact hs.rest.push (Sharing.makes_wrap hs.sound hs.top (q.apply greedy) (by cases q <;> rfl))

/-! ### Closing -/

theorem Sized.pending (h : Sized (pending acc stack) s) : Sized stack s := by
  cases acc with
  | none => exact h
  | some p => exact h.rest

theorem Sized.holds_acc (h : Sized (ExtendedRegex.pending acc stack) s) :
    s.Holds (acc.getD (.leaf .empty)) := by
  cases acc with
  | none => exact h.sound.holds_leaf rfl
  | some p => exact h.top

theorem sized_before (h : Sized (pending acc (.part p :: below)) s) :
    Sized (.part (p.before acc s).1 :: below) (p.before acc s).2 := by
  cases acc with
  | none => exact h
  | some q => exact h.rest.rest.push (Sharing.makes_join h.sound h.rest.top h.top .cat rfl)

theorem sized_orElse {bar : Nat}
    (h : Sized (pending acc (.marker (.bar bar) :: .part p :: below)) s) :
    Sized (.part (p.orElse acc s).1 :: below) (p.orElse acc s).2 :=
  h.pending.rest.rest.push (Sharing.makes_join h.sound h.pending.rest.top h.holds_acc .alt rfl)

theorem sized_closeBranch (h : closeBranch level acc stack s = .ok (stack', s'))
    (hs : Sized (pending acc stack) s) : Sized stack' s' := by
  fun_induction closeBranch level acc stack s with
  | case1 acc s =>
    cases h
    exact hs.pending.part hs.holds_acc
  | case2 acc p below s p' s₁ hbefore ih =>
    have hsized := sized_before hs
    rw [hbefore] at hsized
    exact ih h hsized
  | case3 acc l offset below s hlevel =>
    cases h
    exact hs.pending.part hs.holds_acc
  | case5 acc bar left below s p' s₁ horElse =>
    cases h
    have hsized := sized_orElse hs
    rwa [horElse] at hsized
  | case4 | case6 => cases h

theorem sized_closeGroup (h : closeGroup level closing acc stack s = .ok (stack', s'))
    (hs : Sized (pending acc stack) s) : Sized stack' s' := by
  fun_induction closeGroup level closing acc stack s with
  | case2 acc p below s p' s₁ hbefore ih =>
    have hsized := sized_before hs
    rw [hbefore] at hsized
    exact ih h hsized
  | case3 acc l offset below s hlevel p' s₁ hwrap =>
    cases h
    cases hwrap
    exact hs.pending.rest.push (Sharing.makes_wrap hs.sound hs.holds_acc (.group offset) rfl)
  | case5 acc bar left below s p' s₁ horElse ih =>
    have hsized := sized_orElse hs
    rw [horElse] at hsized
    exact ih h hsized
  | case1 | case4 | case6 => cases h

/-- What is taken from a stack leaves the sizes of the rest. -/
theorem Sized.suffix (h : Sized stack s) (hstack : stack' <:+ stack) : Sized stack' s :=
  ⟨h.sound, fun p hp ↦ h.holds p (hstack.mem hp)⟩

theorem nodeCount_bracketTree (negated : Bool) (set : CodeSet) :
    (bracketTree negated set).nodeCount = 1 := by
  unfold bracketTree
  split <;> rfl

theorem sized_closeBracket {negated : Bool}
    (h : closeBracket negated level closing stack = .ok stack') (hs : Sized stack s) :
    Sized stack' s := by
  obtain ⟨⟨set, below⟩, hgather, hresult⟩ := exists_of_bind_eq_ok h
  obtain rfl := Except.ok.inj hresult
  obtain ⟨l, offset, hsuffix⟩ := suffix_of_gatherSet hgather
  have hbelow := hs.suffix ((List.suffix_cons _ _).trans hsuffix)
  split
  · exact hbelow
  · exact hbelow.leaf (nodeCount_bracketTree negated set)

theorem sized_boundOperand (h : boundOperand stack = .ok (p, below)) (hs : Sized stack s) :
    Sized (.part p :: below) s := by
  cases stack with
  | nil =>
    cases h
    exact hs.leaf rfl
  | cons item stack =>
    cases item with
    | part p =>
      cases h
      exact hs
    | marker m => cases h

theorem sized_closeBound (h : closeBound closing stack s = .ok (stack', s')) (hs : Sized stack s) :
    Sized stack' s' := by
  obtain ⟨⟨opening, units, below⟩, hunits, h⟩ := exists_of_bind_eq_ok h
  obtain ⟨bound, -, h⟩ := exists_of_bind_eq_ok h
  obtain ⟨⟨operand, below'⟩, hoperand, h⟩ := exists_of_bind_eq_ok h
  have hbelow := hs.suffix ((List.suffix_cons _ _).trans (suffix_of_boundUnits hunits))
  have hsized := sized_boundOperand hoperand hbelow
  have hgrows := (Sharing.measure_spec hsized.sound hsized.top).2
  dsimp only at h
  split at h
  · cases h
  · obtain ⟨rfl, rfl⟩ := Prod.mk.inj (Except.ok.inj h)
    have hgrown := hsized.grows hgrows
    exact hgrown.rest.push (Bound.makes_expand hgrown.sound hgrown.top bound)

end Stacks

/-! ### Reading -/

namespace ReadState

variable {pattern : Text} {s s' : ReadState} {sharing sharing' : Sharing} {t : Token}
  {modified : Bool}

theorem Reaction.sized (h : Reaction s sharing t modified s' sharing')
    (hs : Sized s.stack sharing) : Sized s'.stack sharing' := by
  cases h with
  | stay => exact hs
  | leaf htree => exact hs.leaf (Regex.nodeCount_eq_one (Mode.operands_leaf htree))
  | quantify _ hquantify => exact sized_quantify hquantify hs
  | bar _ hclose => exact (sized_closeBranch hclose hs).mark _
  | closeGroup _ hclose => exact sized_closeGroup hclose hs
  | closeBracket _ _ hclose => exact sized_closeBracket hclose hs
  | closeBound _ _ hclose => exact sized_closeBound hclose hs
  | openGroup | openBracket | openBound => exact hs.mark _

theorem run_sized (h : run pattern s sharing = .ok (s', sharing')) (hs : Sized s.stack sharing) :
    Sized s'.stack sharing' := by
  fun_induction run pattern s sharing with
  | case1 => cases h
  | case2 s sharing hoffset s₁ sharing₁ hstep _ ih =>
    obtain ⟨t, s₂, -, hreact, rfl⟩ := exists_of_step hstep
    have hsized : Sized s₂.stack sharing₁ := (reaction_of_react hreact).sized hs
    exact ih h hsized
  | case3 =>
    cases h
    exact hs

end ReadState

/-! ### Accepted patterns -/

theorem Regex.codeLength_le (e : Regex) : e.codeLength ≤ 2 * e.nodeCount := by
  induction e with
  | empty | any | literal | oneOf | startAnchor | endAnchor => simp [codeLength, nodeCount]
  | cat left right ihLeft ihRight | alt left right ihLeft ihRight =>
    simp only [codeLength, nodeCount]
    omega
  | opt inner _ ih | star inner _ ih | plus inner _ ih | group _ inner ih =>
    simp only [codeLength, nodeCount]
    omega

/-- The tree of a pattern with every repetition written out is not larger than the limit, and its
program has no more than two instructions for each node, besides those around the whole match. -/
theorem parse_nodeCount_le {pattern : Text} {maxLength : Int} {e : Regex}
    (h : Regex.parse pattern maxLength = .ok e) :
    e.nodeCount ≤ maxExpandedSize ∧ e.compile.code.size ≤ 2 * maxExpandedSize + 3 := by
  obtain ⟨s, sharing, hrun, hresult⟩ := exists_run_of_parse h
  obtain ⟨root, sharing', hclose, hsize, rfl⟩ := ReadState.exists_of_result hresult
  have hsized : Sized s.stack sharing := ReadState.run_sized hrun (sized_nil Sharing.sound_empty)
  have hroot : Sized [.part root] sharing' := sized_closeBranch hclose hsized
  rw [(Sharing.measure_spec hroot.sound hroot.top).1] at hsize
  refine ⟨hsize, ?_⟩
  have hlength := root.tree.codeLength_le
  rw [Regex.size_code_compile]
  omega

/-! ### A bound on a bound -/

/-- The pattern `a{2}{3}`. -/
def nestedBound : Text := #['a', '{', '2', '}', '{', '3', '}']

def twoLetters : Regex := .cat (.literal (.unit 'a')) (.literal (.unit 'a'))

def nestedTree : Regex := .cat (.cat twoLetters twoLetters) twoLetters

/-- The operands after the first bound, and after the second one. -/
def nestedRecord : Nat → OperandRecord
  | 0 => #[[], [0], [0, 0]]
  | _ => #[[], [0], [0, 0], [2], [2, 2], [4, 2]]

theorem measure_nestedBound :
    Sharing.measure {} 0 = (1, ⟨#[[]], .insert ∅ 0 1⟩) ∧
      Sharing.measure ⟨nestedRecord 0, .insert ∅ 0 1⟩ 2 =
        (3, ⟨nestedRecord 0, .insert (.insert ∅ 0 1) 2 3⟩) ∧
      (Sharing.measure ⟨nestedRecord 1, .insert (.insert ∅ 0 1) 2 3⟩ 5).1 = 11 := by
  simp [nestedRecord, Sharing.measure, SizeTable.fill, OperandRecord.operands,
    Std.HashMap.getD_insert]

theorem run_nestedBound : ReadState.run nestedBound {} {} =
    .ok (⟨7, .normal, 0, [.part ⟨nestedTree, 5⟩]⟩,
      ⟨nestedRecord 1, .insert (.insert ∅ 0 1) 2 3⟩) := by
  obtain ⟨hmeasure₁, hmeasure₂, -⟩ := measure_nestedBound
  have hread₁ : Bound.read 1 3 ['2'] = .ok ⟨.exact 2, some (.exact 2)⟩ := rfl
  have hread₂ : Bound.read 4 6 ['3'] = .ok ⟨.exact 3, some (.exact 3)⟩ := rfl
  have hclose₁ : closeBound 3 [.part (.leaf (.literal (.unit '2'))), .marker (.openBound 1),
      .part (.leaf (.literal (.unit 'a')))] {} =
      .ok ([.part ⟨twoLetters, 2⟩], ⟨nestedRecord 0, .insert ∅ 0 1⟩) := by
    simp only [closeBound, Part.leaf, boundUnits, boundOperand, hread₁, hmeasure₁, bind,
      Except.bind]
    rfl
  have hclose₂ : closeBound 6 [.part (.leaf (.literal (.unit '3'))), .marker (.openBound 4),
      .part ⟨twoLetters, 2⟩] ⟨nestedRecord 0, .insert ∅ 0 1⟩ =
      .ok ([.part ⟨nestedTree, 5⟩], ⟨nestedRecord 1, .insert (.insert ∅ 0 1) 2 3⟩) := by
    simp only [closeBound, Part.leaf, boundUnits, boundOperand, hread₂, hmeasure₂, bind,
      Except.bind]
    rfl
  have hreact₁ : ReadState.react ⟨3, .bound, 0, [.part (.leaf (.literal (.unit '2'))),
      .marker (.openBound 1), .part (.leaf (.literal (.unit 'a')))]⟩ {} ⟨.closeBound, 3, 4⟩ false =
      .ok (⟨3, .normal, 0, [.part ⟨twoLetters, 2⟩]⟩, ⟨nestedRecord 0, .insert ∅ 0 1⟩) := by
    simp only [ReadState.react, hclose₁, bind, Except.bind, pure, Except.pure]
  have hreact₂ : ReadState.react ⟨6, .bound, 0, [.part (.leaf (.literal (.unit '3'))),
      .marker (.openBound 4), .part ⟨twoLetters, 2⟩]⟩ ⟨nestedRecord 0, .insert ∅ 0 1⟩
        ⟨.closeBound, 6, 7⟩ false =
      .ok (⟨6, .normal, 0, [.part ⟨nestedTree, 5⟩]⟩,
        ⟨nestedRecord 1, .insert (.insert ∅ 0 1) 2 3⟩) := by
    simp only [ReadState.react, hclose₂, bind, Except.bind, pure, Except.pure]
  have hfirst : ReadState.run nestedBound {} {} =
      ReadState.run nestedBound ⟨3, .bound, 0, [.part (.leaf (.literal (.unit '2'))),
        .marker (.openBound 1), .part (.leaf (.literal (.unit 'a')))]⟩ {} := by
    rw [ReadState.run_of_step (by decide) rfl, ReadState.run_of_step (by decide) rfl,
      ReadState.run_of_step (by decide) rfl]
    rfl
  have hsecond : ∀ sharing,
      ReadState.run nestedBound ⟨4, .normal, 0, [.part ⟨twoLetters, 2⟩]⟩ sharing =
        ReadState.run nestedBound ⟨6, .bound, 0, [.part (.leaf (.literal (.unit '3'))),
          .marker (.openBound 4), .part ⟨twoLetters, 2⟩]⟩ sharing := by
    intro sharing
    rw [ReadState.run_of_step (by decide) rfl, ReadState.run_of_step (by decide) rfl]
    rfl
  calc ReadState.run nestedBound {} {}
      = ReadState.run nestedBound ⟨4, .normal, 0, [.part ⟨twoLetters, 2⟩]⟩
          ⟨nestedRecord 0, .insert ∅ 0 1⟩ :=
        hfirst.trans (ReadState.run_of_next (by decide) rfl hreact₁)
    _ = ReadState.run nestedBound ⟨7, .normal, 0, [.part ⟨nestedTree, 5⟩]⟩
          ⟨nestedRecord 1, .insert (.insert ∅ 0 1) 2 3⟩ :=
        (hsecond _).trans (ReadState.run_of_next (by decide) rfl hreact₂)
    _ = _ := ReadState.run_of_size_le (by decide)

theorem parse_nestedBound : Regex.parse nestedBound 100000 = .ok nestedTree := by
  have hlength : ¬ (100000 : Int) < nestedBound.size := by decide
  simp only [Regex.parse, Regex.read, if_neg hlength, run_nestedBound, ReadState.result,
    closeBranch, Part.before, bind, Except.bind, pure, Except.pure]
  simp [Item.marker?, measure_nestedBound.2.2, maxExpandedSize]

theorem parse_nodeCount_le_nestedBound :
    Regex.parse nestedBound 100000 = .ok nestedTree ∧ nestedTree.nodeCount = 11 ∧
      nestedTree.nodeCount ≤ maxExpandedSize ∧
      nestedTree.compile.code.size ≤ 2 * maxExpandedSize + 3 :=
  ⟨parse_nestedBound, rfl, parse_nodeCount_le parse_nestedBound⟩

end ExtendedRegex
