import ExtendedRegex.Proofs.Reading
import ExtendedRegex.Proofs.Traversals

/-!
The groups on the stack of a pattern. What closes a branch, a group or a bracket expression puts
trees together without a change to their groups, so the labels on the stack stay what they were, in
the order in which the groups have been opened.
-/

set_option autoImplicit false
set_option relaxedAutoImplicit false

namespace ExtendedRegex

namespace Regex

variable {e f left right : Regex} {label : Nat}

/-! ### Trees with the same groups -/

theorem mem_labels_of_mem_subtrees {inner : Regex} (h : group label inner ∈ e.subtrees) :
    label ∈ e.labels :=
  (mem_labels_iff e).mpr (mem_openings_iff.mpr ⟨inner, h⟩)

/-- Two trees with the same groups, which open in the same order. -/
structure SameGroups (e f : Regex) : Prop where
  labels_eq : f.labels = e.labels
  mem_of_mem : ∀ label inner, group label inner ∈ f.subtrees → group label inner ∈ e.subtrees

theorem SameGroups.coherent (h : e.SameGroups f) (he : e.Coherent) : f.Coherent :=
  fun label inner inner' hinner hinner' ↦
    he label inner inner' (h.mem_of_mem _ _ hinner) (h.mem_of_mem _ _ hinner')

theorem SameGroups.refl (e : Regex) : e.SameGroups e := ⟨rfl, fun _ _ h ↦ h⟩

theorem sameGroups_apply (q : Quantifier) (greedy : Bool) (e : Regex) :
    e.SameGroups (q.apply greedy e) := by
  cases q <;> exact ⟨rfl, fun label inner h ↦ by simpa [Quantifier.apply, subtrees] using h⟩

/-- Another copy of the same groups opens nothing new. -/
theorem SameGroups.cat (hleft : e.SameGroups left) (hright : e.SameGroups right) :
    e.SameGroups (left.cat right) := by
  constructor
  · have hrepeated : right.openings.removeAll left.openings = [] := by
      rw [List.removeAll, List.filter_eq_nil_iff]
      intro label hlabel
      have hmem := (mem_labels_iff right).mpr hlabel
      rw [hright.labels_eq, ← hleft.labels_eq, mem_labels_iff] at hmem
      simpa using hmem
    rw [labels, openings, List.eraseDups_append, hrepeated, List.eraseDups_nil, List.append_nil]
    exact hleft.labels_eq
  · intro label inner h
    simp only [subtrees, List.mem_cons, reduceCtorEq, false_or, List.mem_append] at h
    exact h.elim (hleft.mem_of_mem label inner) (hright.mem_of_mem label inner)

theorem sameGroups_sequence {copies : List Regex} (hne : copies ≠ [])
    (h : ∀ c ∈ copies, e.SameGroups c) : e.SameGroups (sequence copies) := by
  obtain ⟨first, rest, rfl⟩ := List.exists_cons_of_ne_nil hne
  rw [sequence]
  induction rest generalizing first with
  | nil => exact h first List.mem_cons_self
  | cons c rest ih =>
    refine ih (first.cat c) (by simp) fun d hd ↦ ?_
    rcases List.mem_cons.mp hd with rfl | hd
    · exact (h first (by simp)).cat (h c (by simp))
    · exact h d (by simp [hd])

/-! ### Trees with groups of their own -/

theorem labels_eq_nil (h : e.openings = []) : e.labels = [] := by
  rw [labels, h, List.eraseDups_nil]

theorem openings_eq_nil (h : e.operands = []) : e.openings = [] := by
  cases e <;> first | rfl | cases h

theorem coherent_of_openings_eq_nil (h : e.openings = []) : e.Coherent := by
  intro label inner inner' hinner
  have hmem := mem_openings_iff.mpr ⟨inner, hinner⟩
  rw [h] at hmem
  cases hmem

theorem eraseDups_append_of_disjoint {l l' : List Nat} (h : l.Disjoint l') :
    (l ++ l').eraseDups = l.eraseDups ++ l'.eraseDups := by
  have hnew : l'.removeAll l = l' := by
    rw [List.removeAll, List.filter_eq_self]
    intro a ha
    simpa using fun ha' ↦ h ha' ha
  rw [List.eraseDups_append, hnew]

/-- The ways of joining two trees under one node. -/
inductive Joins : (Regex → Regex → Regex) → Prop where
  | cat : Joins cat
  | alt : Joins alt

theorem Joins.openings {build : Regex → Regex → Regex} (h : Joins build) :
    (build left right).openings = left.openings ++ right.openings := by
  cases h <;> rfl

theorem Joins.subtrees {build : Regex → Regex → Regex} (h : Joins build) :
    (build left right).subtrees = build left right :: (left.subtrees ++ right.subtrees) := by
  cases h <;> rfl

theorem Joins.ne_group {build : Regex → Regex → Regex} (h : Joins build) {inner : Regex} :
    group label inner ≠ build left right := by
  cases h <;> simp

variable {build : Regex → Regex → Regex}

theorem Joins.labels (h : Joins build) (hdisjoint : left.labels.Disjoint right.labels) :
    (build left right).labels = left.labels ++ right.labels := by
  have hopenings : left.openings.Disjoint right.openings := by
    intro label hleft hright
    exact hdisjoint ((mem_labels_iff left).mpr hleft) ((mem_labels_iff right).mpr hright)
  rw [Regex.labels, h.openings, eraseDups_append_of_disjoint hopenings]
  rfl

theorem Joins.coherent (h : Joins build) (hdisjoint : left.labels.Disjoint right.labels)
    (hleft : left.Coherent) (hright : right.Coherent) : (build left right).Coherent := by
  intro label inner inner' hinner hinner'
  simp only [h.subtrees, List.mem_cons, h.ne_group, false_or, List.mem_append] at hinner hinner'
  rcases hinner with hinner | hinner <;> rcases hinner' with hinner' | hinner'
  · exact hleft _ _ _ hinner hinner'
  · exact absurd (mem_labels_of_mem_subtrees hinner')
      (hdisjoint (mem_labels_of_mem_subtrees hinner))
  · exact absurd (mem_labels_of_mem_subtrees hinner)
      (hdisjoint (mem_labels_of_mem_subtrees hinner'))
  · exact hright _ _ _ hinner hinner'

theorem labels_group (h : label ∉ e.labels) : (group label e).labels = label :: e.labels := by
  have hopenings : List.Disjoint [label] e.openings := by
    simpa using fun hmem ↦ h ((mem_labels_iff e).mpr hmem)
  rw [labels, openings, ← List.singleton_append, eraseDups_append_of_disjoint hopenings]
  rfl

theorem coherent_group (h : label ∉ e.labels) (he : e.Coherent) : (group label e).Coherent := by
  intro label' inner inner' hinner hinner'
  simp only [subtrees, List.mem_cons, group.injEq] at hinner hinner'
  rcases hinner with ⟨rfl, rfl⟩ | hinner <;> rcases hinner' with ⟨hlabel, rfl⟩ | hinner'
  · rfl
  · exact absurd (mem_labels_of_mem_subtrees hinner') h
  · exact absurd (mem_labels_of_mem_subtrees hinner) (hlabel ▸ h)
  · exact he _ _ _ hinner hinner'

end Regex

/-! ### Labels on the stack -/

def Item.labels : Item → List Nat
  | part p => p.tree.labels
  | marker (.openGroup _ offset) => [offset]
  | marker (.openBracket _ _) | marker (.openBound _) | marker (.bar _) => []

/-- The labels of the groups on a stack, those that are still open among them. The lowest item
comes first. -/
def stackLabels : List Item → List Nat
  | [] => []
  | item :: below => stackLabels below ++ item.labels

@[simp] theorem labels_part (p : Part) : (Item.part p).labels = p.tree.labels := rfl

@[simp] theorem labels_openGroup (level offset : Nat) :
    (Item.marker (.openGroup level offset)).labels = [offset] := rfl

@[simp] theorem stackLabels_cons (item : Item) (below : List Item) :
    stackLabels (item :: below) = stackLabels below ++ item.labels := rfl

/-- No label stands for two groups of a stack. -/
structure Numbered (stack : List Item) : Prop where
  nodup : (stackLabels stack).Nodup
  coherent : ∀ p, .part p ∈ stack → p.tree.Coherent

/-- A stack that takes the place of another one, with the same groups in the same order. -/
def Keeps (stack stack' : List Item) : Prop :=
  Numbered stack → Numbered stack' ∧ stackLabels stack' = stackLabels stack

variable {stack stack' stack'' below : List Item} {p q : Part} {item : Item}

theorem Keeps.refl (stack : List Item) : Keeps stack stack := fun h ↦ ⟨h, rfl⟩

theorem Keeps.trans (h : Keeps stack stack') (h' : Keeps stack' stack'') : Keeps stack stack'' := by
  intro hstack
  obtain ⟨hstack', hlabels⟩ := h hstack
  obtain ⟨hstack'', hlabels'⟩ := h' hstack'
  exact ⟨hstack'', hlabels'.trans hlabels⟩

theorem Numbered.rest (h : Numbered (item :: below)) : Numbered below :=
  ⟨(List.nodup_append.mp h.nodup).1, fun p hp ↦ h.coherent p (List.mem_cons_of_mem _ hp)⟩

theorem Numbered.mark {m : Marker} (h : Numbered below)
    (hnodup : (stackLabels below ++ (Item.marker m).labels).Nodup) :
    Numbered (.marker m :: below) := by
  refine ⟨hnodup, fun p hp ↦ ?_⟩
  rcases List.mem_cons.mp hp with hp | hp
  · cases hp
  · exact h.coherent p hp

theorem Numbered.coherent_top (h : Numbered (.part p :: below)) : p.tree.Coherent :=
  h.coherent p List.mem_cons_self

/-- Items on a stack are replaced by one part that has all of their labels. -/
theorem keeps_replace
    (h : Numbered stack → Numbered below ∧ p.tree.Coherent ∧
      stackLabels stack = stackLabels below ++ p.tree.labels) :
    Keeps stack (.part p :: below) := by
  intro hstack
  obtain ⟨hbelow, hp, hlabels⟩ := h hstack
  have hnodup := hstack.nodup
  rw [hlabels] at hnodup
  refine ⟨⟨hnodup, fun q hq ↦ ?_⟩, hlabels.symm⟩
  rcases List.mem_cons.mp hq with hq | hq
  · obtain rfl := Item.part.inj hq
    exact hp
  · exact hbelow.coherent q hq

theorem keeps_push (h : p.tree.openings = []) : Keeps stack (.part p :: stack) :=
  keeps_replace fun hstack ↦
    ⟨hstack, Regex.coherent_of_openings_eq_nil h, by simp [Regex.labels_eq_nil h]⟩

theorem keeps_mark {m : Marker} (h : (Item.marker m).labels = []) :
    Keeps stack (.marker m :: stack) :=
  fun hstack ↦ ⟨hstack.mark (by simpa [h] using hstack.nodup), by simp [h]⟩

theorem keeps_drop (h : item.labels = []) : Keeps (item :: below) below :=
  fun hstack ↦ ⟨hstack.rest, by simp [h]⟩

/-- An item without labels is taken from under a part. -/
theorem keeps_dropBelow (h : item.labels = []) :
    Keeps (.part p :: item :: below) (.part p :: below) :=
  keeps_replace fun hstack ↦ ⟨hstack.rest.rest, hstack.coherent_top, by simp [h]⟩

theorem keeps_sameGroups (h : p.tree.SameGroups q.tree) :
    Keeps (.part p :: below) (.part q :: below) :=
  keeps_replace fun hstack ↦
    ⟨hstack.rest, h.coherent hstack.coherent_top, by simp [h.labels_eq]⟩

theorem keeps_join {build : Regex → Regex → Regex} (h : Regex.Joins build) (place : Nat) :
    Keeps (.part q :: .part p :: below) (.part ⟨build p.tree q.tree, place⟩ :: below) := by
  refine keeps_replace fun hstack ↦ ?_
  have hnodup := hstack.nodup
  simp only [stackLabels_cons, labels_part, List.append_assoc] at hnodup
  -- The labels of a stack are distinct, so its parts have no groups in common.
  have hdisjoint : p.tree.labels.Disjoint q.tree.labels :=
    List.disjoint_of_nodup_append (List.nodup_append.mp hnodup).2.1
  refine ⟨hstack.rest.rest,
    h.coherent hdisjoint hstack.rest.coherent_top hstack.coherent_top, ?_⟩
  simp [h.labels hdisjoint]

theorem keeps_group (level offset place : Nat) :
    Keeps (.part p :: .marker (.openGroup level offset) :: below)
      (.part ⟨.group offset p.tree, place⟩ :: below) := by
  refine keeps_replace fun hstack ↦ ?_
  have hnodup := hstack.nodup
  simp only [stackLabels_cons, labels_part, labels_openGroup, List.append_assoc,
    List.singleton_append] at hnodup
  have hlabel : offset ∉ p.tree.labels :=
    (List.nodup_cons.mp (List.nodup_append.mp hnodup).2.1).1
  refine ⟨hstack.rest.rest, Regex.coherent_group hlabel hstack.coherent_top, ?_⟩
  simp [Regex.labels_group hlabel]

/-! ### Closing keeps the groups -/

/-- The items that closing has still before it, with what has been joined so far on top. -/
def pending (acc : Option Part) (stack : List Item) : List Item :=
  match acc with
  | none => stack
  | some p => .part p :: stack

theorem keeps_pending (acc : Option Part) (stack : List Item) :
    Keeps (pending acc stack) (.part (acc.getD (.leaf .empty)) :: stack) := by
  cases acc with
  | none => exact keeps_push rfl
  | some p => exact .refl _

variable {level closing : Nat} {acc : Option Part} {s s' : Sharing}

theorem keeps_before (acc : Option Part) (p : Part) (below : List Item) (s : Sharing) :
    Keeps (pending acc (.part p :: below)) (.part (p.before acc s).1 :: below) := by
  cases acc with
  | none => exact .refl _
  | some q => exact keeps_join .cat _

theorem keeps_orElse (acc : Option Part) (bar : Nat) (p : Part) (below : List Item) (s : Sharing) :
    Keeps (pending acc (.marker (.bar bar) :: .part p :: below))
      (.part (p.orElse acc s).1 :: below) :=
  ((keeps_pending acc _).trans (keeps_dropBelow rfl)).trans (keeps_join .alt _)

theorem keeps_closeBranch (h : closeBranch level acc stack s = .ok (stack', s')) :
    Keeps (pending acc stack) stack' := by
  fun_induction closeBranch level acc stack s with
  | case1 acc s =>
    cases h
    exact keeps_pending acc []
  | case2 acc p below s p' s₁ hbefore ih =>
    have hkeeps := keeps_before acc p below s
    rw [hbefore] at hkeeps
    exact hkeeps.trans (ih h)
  | case3 acc l offset below s hlevel =>
    cases h
    exact keeps_pending acc _
  | case5 acc bar left below s p' s₁ horElse =>
    cases h
    have hkeeps := keeps_orElse acc bar left below s
    rwa [horElse] at hkeeps
  | case4 | case6 => cases h

theorem keeps_closeGroup (h : closeGroup level closing acc stack s = .ok (stack', s')) :
    Keeps (pending acc stack) stack' := by
  fun_induction closeGroup level closing acc stack s with
  | case2 acc p below s p' s₁ hbefore ih =>
    have hkeeps := keeps_before acc p below s
    rw [hbefore] at hkeeps
    exact hkeeps.trans (ih h)
  | case3 acc l offset below s hlevel p' s₁ hwrap =>
    cases h
    cases hwrap
    exact (keeps_pending acc _).trans (keeps_group l offset _)
  | case5 acc bar left below s p' s₁ horElse ih =>
    have hkeeps := keeps_orElse acc bar left below s
    rw [horElse] at hkeeps
    exact hkeeps.trans (ih h)
  | case1 | case4 | case6 => cases h

theorem keeps_quantify {q : Quantifier} {greedy : Bool} {offset : Nat}
    (h : quantify q greedy offset stack s = .ok (stack', s')) : Keeps stack stack' := by
  cases stack with
  | nil => cases h
  | cons item below =>
    cases item with
    | marker m => cases h
    | part p =>
      cases h
      exact keeps_sameGroups (Regex.sameGroups_apply q greedy p.tree)

theorem labels_of_unit? {u : CodeUnit} (h : item.unit? = some u) : item.labels = [] := by
  cases item with
  | marker m => cases h
  | part p =>
    obtain ⟨tree, place⟩ := p
    cases tree with
    | literal l => rfl
    | _ => cases h

theorem keeps_drop_range {u : CodeUnit} (h : rangeStart? stack = some u) :
    Keeps stack (stack.drop 2) := by
  match stack with
  | [] | [_] => cases h
  | item :: item' :: below =>
    rw [rangeStart?] at h
    split at h
    · next hhyphen =>
      exact (keeps_drop (labels_of_unit? hhyphen)).trans (keeps_drop (labels_of_unit? h))
    · cases h

/-- What becomes a bracket expression is taken from items without groups. -/
theorem keeps_gatherSet {set set' : CodeSet}
    (h : gatherSet level closing set stack = .ok (set', stack')) : Keeps stack stack' := by
  fun_induction gatherSet level closing set stack with
  | case2 =>
    cases h
    exact keeps_drop rfl
  | case6 set p below _ u v hstart htree ih =>
    have hlabels : (Item.part p).labels = [] := by rw [labels_part, htree]; rfl
    exact (keeps_drop hlabels).trans ((keeps_drop_range hstart).trans (ih h))
  | case7 set p below _ u _ htree ih | case8 set p below _ t htree ih =>
    have hlabels : (Item.part p).labels = [] := by rw [labels_part, htree]; rfl
    exact (keeps_drop hlabels).trans (ih h)
  | case1 | case3 | case4 | case5 | case9 => cases h

theorem openings_bracketTree (negated : Bool) (set : CodeSet) :
    (bracketTree negated set).openings = [] := by
  unfold bracketTree
  split <;> rfl

theorem keeps_closeBracket {negated : Bool}
    (h : closeBracket negated level closing stack = .ok stack') : Keeps stack stack' := by
  obtain ⟨⟨set, below⟩, hgather, hresult⟩ := exists_of_bind_eq_ok h
  obtain rfl := Except.ok.inj hresult
  split
  · exact keeps_gatherSet hgather
  · exact (keeps_gatherSet hgather).trans (keeps_push (openings_bracketTree negated set))

/-! ### Bounds and their operands -/

theorem keeps_boundUnits {units units' : List CodeUnit} {opening : Nat}
    (h : boundUnits closing units stack = .ok (opening, units', stack')) : Keeps stack stack' := by
  fun_induction boundUnits closing units stack with
  | case1 units u place below ih => exact (keeps_drop rfl).trans (ih h)
  | case2 units offset below =>
    cases h
    exact keeps_drop rfl
  | case3 => cases h

theorem keeps_boundOperand (h : boundOperand stack = .ok (p, below)) :
    Keeps stack (.part p :: below) := by
  cases stack with
  | nil =>
    cases h
    exact keeps_push rfl
  | cons item stack =>
    cases item with
    | part p =>
      cases h
      exact .refl _
    | marker m => cases h

/-- The bound that ends at a closing brace, with its operand and what is below that. -/
def boundOnTop (closing : Nat) (stack : List Item) : Except Flaw (Bound × Part × List Item) := do
  let (opening, units, below) ← boundUnits closing [] stack
  let bound ← Bound.read opening closing units
  let (operand, below) ← boundOperand below
  return (bound, operand, below)

theorem exists_of_closeBound (h : closeBound closing stack s = .ok (stack', s')) :
    ∃ bound operand below s₁, boundOnTop closing stack = .ok (bound, operand, below) ∧
      stack' = .part (bound.expand operand s₁).1 :: below := by
  obtain ⟨⟨opening, units, below⟩, hunits, h⟩ := exists_of_bind_eq_ok h
  obtain ⟨bound, hbound, h⟩ := exists_of_bind_eq_ok h
  obtain ⟨⟨operand, below'⟩, hoperand, h⟩ := exists_of_bind_eq_ok h
  dsimp only at h
  split at h
  · cases h
  · refine ⟨bound, operand, below', _, ?_, (congrArg Prod.fst (Except.ok.inj h)).symm⟩
    simp only [boundOnTop, hunits, hbound, hoperand, bind, Except.bind, pure, Except.pure]

theorem Bound.ordered_of_read {opening : Nat} {units : List CodeUnit} {bound : Bound}
    (h : Bound.read opening closing units = .ok bound) :
    bound.high.any bound.low.exceeds = false := by
  obtain ⟨bound', -, h⟩ := exists_of_bind_eq_ok h
  dsimp only at h
  split at h
  · cases h
  · split at h
    · cases h
    · next hordered =>
      obtain rfl := Except.ok.inj h
      simpa using hordered

/-- A bound has its operand below it, or repeats nothing. -/
theorem boundOnTop_spec {bound : Bound} (h : boundOnTop closing stack = .ok (bound, p, below)) :
    Keeps stack (.part p :: below) ∧ bound.high.any bound.low.exceeds = false := by
  obtain ⟨⟨opening, units, rest⟩, hunits, h⟩ := exists_of_bind_eq_ok h
  obtain ⟨bound', hbound, h⟩ := exists_of_bind_eq_ok h
  obtain ⟨⟨operand, below'⟩, hoperand, h⟩ := exists_of_bind_eq_ok h
  obtain ⟨rfl, rfl, rfl⟩ : bound' = bound ∧ operand = p ∧ below' = below := by
    simpa using Except.ok.inj h
  exact ⟨(keeps_boundUnits hunits).trans (keeps_boundOperand hoperand),
    Bound.ordered_of_read hbound⟩

namespace Bound

/-- Both counts have a value, as far as the bound has them. -/
def Determinate (b : Bound) : Prop := b.low ≠ .indeterminate ∧ b.high ≠ some .indeterminate

/-- No copy of the operand is left. -/
def Vanishing (b : Bound) : Prop := b.high = some (.exact 0)

instance (b : Bound) : Decidable b.Vanishing := inferInstanceAs (Decidable (_ = _))

variable {b : Bound} {e c : Regex}

theorem sameGroups_of_mem_copies (h : c ∈ b.copies e) : e.SameGroups c := by
  have hself : ∀ {n}, c ∈ List.replicate n e → e.SameGroups c :=
    fun hc ↦ List.eq_of_mem_replicate hc ▸ .refl e
  obtain ⟨low, high⟩ := b
  cases low with
  | exact low =>
    cases high with
    | none =>
      cases low with
      | zero => exact List.mem_singleton.mp h ▸ Regex.sameGroups_apply .star true e
      | succ n =>
        rcases List.mem_append.mp h with hc | hc
        · exact hself hc
        · exact List.mem_singleton.mp hc ▸ Regex.sameGroups_apply .plus true e
    | some high =>
      cases high with
      | exact high =>
        simp only [copies] at h
        rcases List.mem_append.mp h with hc | hc
        · exact hself hc
        · exact List.eq_of_mem_replicate hc ▸ Regex.sameGroups_apply .opt false e
      | indeterminate =>
        simp only [copies] at h
        exact hself h
  | indeterminate =>
    cases high with
    | none => exact List.mem_singleton.mp h ▸ Regex.sameGroups_apply .plus true e
    | some high => cases h

theorem copies_eq_nil_iff (hdeterminate : b.Determinate)
    (hordered : b.high.any b.low.exceeds = false) (e : Regex) :
    b.copies e = [] ↔ b.Vanishing := by
  obtain ⟨low, high⟩ := b
  cases low with
  | indeterminate => exact absurd rfl hdeterminate.1
  | exact low =>
    cases high with
    | none => cases low <;> simp [copies, Vanishing]
    | some high =>
      cases high with
      | indeterminate => exact absurd rfl hdeterminate.2
      | exact high =>
        have hle : low ≤ high := by simpa [Count.exceeds] using hordered
        simp only [copies, Vanishing, List.append_eq_nil_iff, List.replicate_eq_nil_iff,
          Option.some.injEq, Count.exact.injEq]
        omega

end Bound

end ExtendedRegex
