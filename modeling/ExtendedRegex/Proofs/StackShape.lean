import ExtendedRegex.Proofs.Nesting

/-!
The shape of the stack while a pattern is read: which openings are on it and in which order, what
stands above them, and where the bars are. A state that has this shape says which tokens can fail,
and a pattern with a tree has left nothing open.
-/

set_option autoImplicit false
set_option relaxedAutoImplicit false

namespace ExtendedRegex

namespace Item

/-- The level that an opening is marked with. -/
def level? : Item → Option Nat
  | marker (.openGroup level _) | marker (.openBracket level _) => some level
  | _ => none

def opensGroup : Item → Bool
  | marker (.openGroup _ _) => true
  | _ => false

def opensBracket : Item → Bool
  | marker (.openBracket _ _) => true
  | _ => false

def opensBound : Item → Bool
  | marker (.openBound _) => true
  | _ => false

def isBar : Item → Bool
  | marker (.bar _) => true
  | _ => false

/-- Whether an item is finished, and a single unit or a set. -/
def elementary : Item → Bool
  | part p => p.tree.elementary
  | marker _ => false

end Item

/-- How many bracket expressions the units that are read stand in, if they are not in a bound. -/
def Mode.depth? : Mode → Option Nat
  | normal => some 0
  | bound => none
  | bracket _ outer => outer.depth?.map (· + 1)

/-- There is no bar in a stretch of a stack, or one with a single part below it. -/
def Barred (stretch : List Item) : Prop :=
  (∀ item ∈ stretch, item.isBar = false) ∨
    ∃ above offset p, stretch = above ++ [.marker (.bar offset), .part p] ∧
      ∀ item ∈ above, item.isBar = false

/-- The order on the stack of a pattern that is being read. -/
structure ReadState.Orderly (s : ReadState) : Prop where
  /-- From the bottom up, the groups and brackets stand at the levels below the current one. -/
  levels : (s.stack.filterMap Item.level?).reverse = List.range s.level
  level_le : s.level ≤ maxNestingDepth
  groups_below : s.stack.Pairwise fun upper lower ↦ lower.opensBracket → upper.opensGroup = false
  /-- The mode is inside of as many bracket expressions as are open on the stack. -/
  bracket_iff : ∀ depth, 0 < depth →
    (s.mode.depth? = some depth ↔ s.stack.countP Item.opensBracket = depth)
  above_bracket : s.stack.Pairwise fun upper lower ↦
    lower.opensBracket → upper.opensBracket ∨ upper.elementary
  bound_iff : s.mode = .bound ↔ s.stack.countP Item.opensBound = 1
  bound_le : s.stack.countP Item.opensBound ≤ 1
  above_bound : s.stack.Pairwise fun upper lower ↦ lower.opensBound → upper.elementary
  /-- Between the openings of groups there is no more than one bar, with its left operand. -/
  bars : ∀ stretch ∈ s.stack.splitOnP Item.opensGroup, Barred stretch

/-! ### Stretches between groups -/

section Stretches

variable {item : Item} {stretch stack : List Item}

theorem Barred.push (h : Barred stretch) (hitem : item.isBar = false) :
    Barred (item :: stretch) := by
  rcases h with h | ⟨above, offset, p, rfl, habove⟩
  · exact .inl (List.forall_mem_cons.mpr ⟨hitem, h⟩)
  · exact .inr ⟨item :: above, offset, p, rfl, List.forall_mem_cons.mpr ⟨hitem, habove⟩⟩

theorem splitOnP_openGroup (level offset : Nat) (stack : List Item) :
    (Item.marker (.openGroup level offset) :: stack).splitOnP Item.opensGroup =
      [] :: stack.splitOnP Item.opensGroup := by
  rw [List.splitOnP_cons_eq_if_modifyHead]
  rfl

/-- What is neither an opening of a group nor a bar goes on the topmost stretch. -/
theorem barred_push (h : ∀ stretch ∈ stack.splitOnP Item.opensGroup, Barred stretch)
    (hgroup : item.opensGroup = false) (hbar : item.isBar = false) :
    ∀ stretch ∈ (item :: stack).splitOnP Item.opensGroup, Barred stretch := by
  rw [List.splitOnP_cons_eq_if_modifyHead, hgroup, if_neg Bool.false_ne_true]
  cases hsplit : stack.splitOnP Item.opensGroup with
  | nil => exact absurd hsplit (List.splitOnP_ne_nil _ _)
  | cons first rest =>
    rw [hsplit] at h
    obtain ⟨hfirst, hrest⟩ := List.forall_mem_cons.mp h
    exact List.forall_mem_cons.mpr ⟨hfirst.push hbar, hrest⟩

/-- A condition on what stands above certain openings says nothing about a stack without them. -/
theorem pairwise_push {opens : Item → Bool} {above : Item → Prop}
    (h : stack.Pairwise fun upper lower ↦ opens lower → above upper)
    (hnone : ∀ lower ∈ stack, opens lower = false) (item : Item) :
    (item :: stack).Pairwise fun upper lower ↦ opens lower → above upper := by
  refine h.cons fun lower hlower hopens ↦ ?_
  rw [hnone lower hlower] at hopens
  cases hopens

end Stretches

namespace Nested

variable {mode : Mode} {level : Nat} {opened : List Token} {stack : List Item}

theorem levels (h : Nested mode level opened stack) :
    (stack.filterMap Item.level?).reverse = List.range level := by
  induction h with
  | empty => rfl
  | part _ _ ih | bound _ _ ih | elementary _ _ _ ih | bar _ _ _ _ ih => exact ih
  | group _ _ _ ih | bracket _ _ _ _ _ ih =>
    simp only [List.filterMap_cons, Item.level?, List.reverse_cons, ih, List.range_succ]

theorem bars (h : Nested mode level opened stack) :
    ∀ stretch ∈ stack.splitOnP Item.opensGroup, Barred stretch := by
  induction h with
  | empty => simp [Barred]
  | part _ _ ih | elementary _ _ _ ih => exact barred_push ih rfl rfl
  | bracket _ _ _ _ _ ih | bound _ _ ih => exact barred_push ih rfl rfl
  | group _ _ _ ih =>
    rw [splitOnP_openGroup]
    exact List.forall_mem_cons.mpr ⟨.inl (by simp), ih⟩
  | bar _ hbase p offset ih =>
    have hpair : Barred [.marker (.bar offset), .part p] := .inr ⟨[], offset, p, rfl, by simp⟩
    rcases hbase with rfl | ⟨l, o, below, rfl, -⟩
    · exact List.forall_mem_singleton.mpr hpair
    · rw [splitOnP_openGroup] at ih
      exact List.forall_mem_cons.mpr ⟨hpair, (List.forall_mem_cons.mp ih).2⟩

/-! ### Brackets and bounds -/

theorem countP_opensBound (h : Nested mode level opened stack) :
    stack.countP Item.opensBound = if mode = .bound then 1 else 0 := by
  induction h with
  | empty => rfl
  | part _ _ ih | group _ _ _ ih | bar _ _ _ _ ih | elementary _ _ _ ih => exact ih
  | bracket _ hmode _ _ _ ih =>
    rw [if_neg hmode] at ih
    exact ih
  | bound _ _ ih => exact (List.countP_cons_of_pos rfl).trans (congrArg (· + 1) ih)

theorem opensBound_eq_false (h : Nested mode level opened stack) (hmode : mode ≠ .bound) :
    ∀ item ∈ stack, item.opensBound = false := by
  have hcount := h.countP_opensBound
  rw [if_neg hmode, List.countP_eq_zero] at hcount
  exact fun item hitem ↦ Bool.eq_false_iff.mpr (hcount item hitem)

theorem opensBracket_eq_false (h : Nested mode level opened stack)
    (hmode : mode = .normal ∨ mode = .bound) : ∀ item ∈ stack, item.opensBracket = false := by
  induction h with
  | empty => simp
  | part _ _ ih | elementary _ _ _ ih => exact List.forall_mem_cons.mpr ⟨rfl, ih hmode⟩
  | group _ _ _ ih | bound _ _ ih => exact List.forall_mem_cons.mpr ⟨rfl, ih (.inl rfl)⟩
  | bar _ _ _ _ ih =>
    exact List.forall_mem_cons.mpr ⟨rfl, List.forall_mem_cons.mpr ⟨rfl, ih hmode⟩⟩
  | bracket => simp at hmode

theorem depth?_eq (h : Nested mode level opened stack) (hmode : mode ≠ .bound) :
    mode.depth? = some (stack.countP Item.opensBracket) := by
  induction h with
  | empty => rfl
  | part _ _ ih | group _ _ _ ih | bar _ _ _ _ ih | elementary _ _ _ ih => exact ih hmode
  | bracket _ houter _ _ _ ih =>
    rw [List.countP_cons_of_pos rfl, Mode.depth?, ih houter]
    rfl
  | bound => exact absurd rfl hmode

theorem depth?_eq_some_iff (h : Nested mode level opened stack) {depth : Nat} (hdepth : 0 < depth) :
    mode.depth? = some depth ↔ stack.countP Item.opensBracket = depth := by
  by_cases hmode : mode = .bound
  · have hnone : stack.countP Item.opensBracket = 0 :=
      List.countP_eq_zero.mpr fun item hitem ↦
        Bool.eq_false_iff.mp (h.opensBracket_eq_false (.inr hmode) item hitem)
    rw [hmode, hnone]
    simp [Mode.depth?, hdepth.ne]
  · rw [h.depth?_eq hmode, Option.some_inj]

theorem above_bracket (h : Nested mode level opened stack) :
    stack.Pairwise fun upper lower ↦ lower.opensBracket → upper.opensBracket ∨ upper.elementary := by
  induction h with
  | empty => exact .nil
  | part h _ ih | group h _ _ ih | bound h _ ih =>
    exact pairwise_push ih (h.opensBracket_eq_false (.inl rfl)) _
  | bar h _ p _ ih =>
    exact pairwise_push (pairwise_push ih (h.opensBracket_eq_false (.inl rfl)) _)
      ((h.part p).opensBracket_eq_false (.inl rfl)) _
  | bracket _ _ _ _ _ ih => exact ih.cons fun _ _ _ ↦ .inl rfl
  | elementary _ _ hp ih => exact ih.cons fun _ _ _ ↦ .inr hp

theorem above_bound (h : Nested mode level opened stack) :
    stack.Pairwise fun upper lower ↦ lower.opensBound → upper.elementary := by
  induction h with
  | empty => exact .nil
  | part h _ ih | group h _ _ ih | bound h _ ih =>
    exact pairwise_push ih (h.opensBound_eq_false (by simp)) _
  | bar h _ p _ ih =>
    exact pairwise_push (pairwise_push ih (h.opensBound_eq_false (by simp)) _)
      ((h.part p).opensBound_eq_false (by simp)) _
  | bracket h hmode _ _ _ ih => exact pairwise_push ih (h.opensBound_eq_false hmode) _
  | elementary _ _ hp ih => exact ih.cons fun _ _ _ ↦ hp

theorem opensGroup_eq_false {item : Item} (h : item.opensBracket ∨ item.elementary) :
    item.opensGroup = false := by
  cases item with
  | part => rfl
  | marker m =>
    cases m with
    | openGroup => simp [Item.opensBracket, Item.elementary] at h
    | openBracket | openBound | bar => rfl

theorem orderly {s : ReadState} (h : Nested s.mode s.level opened s.stack) : s.Orderly where
  levels := h.levels
  level_le := h.level_le
  groups_below := h.above_bracket.imp fun habove hlower ↦ opensGroup_eq_false (habove hlower)
  bracket_iff _ hdepth := h.depth?_eq_some_iff hdepth
  above_bracket := h.above_bracket
  bound_iff := by
    rw [h.countP_opensBound]
    split <;> simp [*]
  bound_le := by
    rw [h.countP_opensBound]
    split <;> decide
  above_bound := h.above_bound
  bars := h.bars

end Nested

/-! ### Readings -/

/-- Whatever is read, the stack is in order. So a bar never fails, a closing parenthesis fails only
where nothing is open, and a closing bracket only over a malformed range. A pattern with a tree has
closed all that it opens, and its tree is the one part that is left. -/
theorem reading_orderly (pattern : Text) :
    (∀ tokens s sharing, ReadState.Reached pattern tokens s sharing →
      s.Orderly ∧ ∀ t, Token.next pattern s.mode s.offset = .ok t →
        (t.kind = .bar → ∃ s' sharing', s.step pattern sharing = .ok (s', sharing')) ∧
        (t.kind = .closeGroup → ∀ flaw, s.step pattern sharing = .error flaw ↔
          s.level = 0 ∧ flaw = ⟨.unbalancedClose, t.start⟩) ∧
        (t.kind = .closeBracket → ∀ negated outer, s.mode = .bracket negated outer →
          ∀ flaw, s.step pattern sharing = .error flaw → flaw.fault = .malformedRange)) ∧
    ∀ maxLength e, Regex.parse pattern maxLength = .ok e →
      (∀ before t behind, Token.stream pattern .normal 0 = before ++ t :: behind →
        t.kind.opens = true → ∃ inside closing rest, behind = inside ++ closing :: rest ∧
          closing.kind.closes t.kind = true ∧ Token.unclosed inside = []) ∧
      ∃ s sharing root sharing',
        ReadState.Reached pattern (Token.stream pattern .normal 0) s sharing ∧
        pattern.size ≤ s.offset ∧ s.mode = .normal ∧ s.level = 0 ∧
        closeBranch s.level none s.stack sharing = .ok ([.part root], sharing') ∧ root.tree = e := by
  refine ⟨fun tokens s sharing h ↦ ⟨h.nested.orderly, fun t ht ↦ ⟨?_, ?_, ?_⟩⟩,
    fun maxLength e h ↦ ?_⟩
  · exact ReadState.exists_step_bar h.nested ht
  · exact ReadState.step_closeGroup_eq_error_iff h.nested ht
  · exact fun hkind negated outer hmode flaw ↦
      ReadState.fault_eq_of_closeBracket h.nested ht hkind hmode
  · obtain ⟨s, sharing, hrun, hresult⟩ := exists_run_of_parse h
    obtain ⟨hreached, hend⟩ := ReadState.Reached.start.run hrun
    obtain ⟨root, sharing', hclose, -, htree⟩ := ReadState.exists_of_result hresult
    obtain ⟨hmode, hlevel, hclosed⟩ := ReadState.unclosed_of_result hreached.nested hresult
    rw [List.nil_append] at hreached hclosed
    refine ⟨fun before t behind hstream ht ↦ ?_,
      s, sharing, root, sharing', hreached, hend, hmode, hlevel, hclose, htree⟩
    have hunclosed : Token.unclosed (before ++ t :: behind) = [] := hstream ▸ hclosed
    exact Token.exists_closing_of_unclosed ht hunclosed

/-! ### A bracket expression behind a bar -/

/-- The pattern `(a|[b])`. -/
def branchedGroup : Text := #['(', 'a', '|', '[', 'b', ']', ')']

/-- The state in front of the closing bracket. -/
def insideBracket : ReadState where
  offset := 5
  mode := .bracket false .normal
  level := 2
  stack := [.part (.leaf (.literal (.unit 'b'))), .marker (.openBracket 1 3), .marker (.bar 2),
    .part (.leaf (.literal (.unit 'a'))), .marker (.openGroup 0 0)]

def branchedTree : Regex := .group 0 (.alt (.literal (.unit 'a')) (.literal (.unit 'b')))

theorem run_branchedGroup : ReadState.run branchedGroup {} {} =
    ReadState.run branchedGroup insideBracket {} := by
  rw [ReadState.run_of_step (by decide) rfl, ReadState.run_of_step (by decide) rfl,
    ReadState.run_of_step (by decide) rfl, ReadState.run_of_step (by decide) rfl,
    ReadState.run_of_step (by decide) rfl]
  rfl

/-- The bracket expression becomes the unit in it. -/
theorem step_insideBracket : ReadState.step branchedGroup insideBracket {} =
    .ok (⟨6, .normal, 1, [.part (.leaf (.literal (.unit 'b'))), .marker (.bar 2),
      .part (.leaf (.literal (.unit 'a'))), .marker (.openGroup 0 0)]⟩, {}) := by
  have hgather : gatherSet 2 5 .empty insideBracket.stack =
      .ok (CodeSet.empty.insert (.single 98), insideBracket.stack.drop 2) := by
    simp [gatherSet, insideBracket, Part.leaf, leadingHyphen?, rangeStart?, Item.unit?]
    rfl
  have hclose : closeBracket false 2 5 insideBracket.stack =
      .ok (.part (.leaf (.literal (.unit 'b'))) :: insideBracket.stack.drop 2) := by
    rw [closeBracket, hgather]
    rfl
  have hnext : Token.next branchedGroup (.bracket false .normal) 5 = .ok ⟨.closeBracket, 5, 6⟩ :=
    rfl
  rw [ReadState.step_eq hnext]
  dsimp only [ReadState.react, insideBracket] at hclose ⊢
  rw [hclose]
  rfl

theorem parse_branchedGroup : Regex.parse branchedGroup 100000 = .ok branchedTree := by
  have hlength : ¬ (100000 : Int) < branchedGroup.size := by decide
  have hrun : ReadState.run branchedGroup {} {} =
      .ok (⟨7, .normal, 0, [.part ⟨branchedTree, 2⟩]⟩, ⟨#[[], [0, 0], [1]], ∅⟩) := by
    rw [run_branchedGroup, ReadState.run_of_step (by decide) step_insideBracket,
      ReadState.run_of_step (by decide) rfl, ReadState.run_of_size_le (by decide)]
    rfl
  have hsize : (Sharing.measure ⟨#[[], [0, 0], [1]], ∅⟩ 2).1 = 4 := by
    simp [Sharing.measure, SizeTable.fill, OperandRecord.operands, Std.HashMap.getD_insert]
  simp only [Regex.parse, Regex.read, if_neg hlength, hrun, ReadState.result,
    closeBranch, Part.before, bind, Except.bind, pure, Except.pure]
  simp [Item.marker?, hsize, maxExpandedSize]

theorem reached_insideBracket :
    ∃ tokens, ReadState.Reached branchedGroup tokens insideBracket {} :=
  ⟨_, ((((ReadState.Reached.start.step (by decide) rfl rfl).step (by decide) rfl rfl).step
    (by decide) rfl rfl).step (by decide) rfl rfl).step (by decide) rfl rfl⟩

/-- A bracket expression inside of a branch is in order, and the group around it is closed; the
pattern `)` fails at once. -/
theorem reading_orderly_branchedGroup :
    insideBracket.Orderly ∧
      (∀ flaw, insideBracket.step branchedGroup {} = .error flaw → flaw.fault = .malformedRange) ∧
      (∀ flaw, ReadState.step #[')'] {} {} = .error flaw ↔ flaw = ⟨.unbalancedClose, 0⟩) ∧
      Regex.parse branchedGroup 100000 = .ok branchedTree ∧
      ∃ inside closing rest,
        (Token.stream branchedGroup .normal 0).tail = inside ++ closing :: rest ∧
        closing.kind.closes .openGroup = true ∧ Token.unclosed inside = [] := by
  obtain ⟨tokens, hreached⟩ := reached_insideBracket
  obtain ⟨horderly, hbracket⟩ := (reading_orderly branchedGroup).1 tokens _ _ hreached
  obtain ⟨-, hstray⟩ := (reading_orderly #[')']).1 [] {} {} .start
  obtain ⟨hclosed, -⟩ := (reading_orderly branchedGroup).2 100000 _ parse_branchedGroup
  have hopening : Token.stream branchedGroup .normal 0 =
      [] ++ ⟨.openGroup, 0, 1⟩ :: (Token.stream branchedGroup .normal 0).tail := by
    rw [Token.stream_of_next (by decide) rfl]
    rfl
  refine ⟨horderly, (hbracket ⟨.closeBracket, 5, 6⟩ rfl).2.2 rfl false .normal rfl, fun flaw ↦ ?_,
    parse_branchedGroup, hclosed _ _ _ hopening rfl⟩
  simpa using (hstray ⟨.closeGroup, 0, 1⟩ rfl).2.1 rfl flaw

end ExtendedRegex
