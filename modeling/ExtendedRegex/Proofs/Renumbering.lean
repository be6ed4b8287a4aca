import ExtendedRegex.Proofs.StackLabels

/-!
The groups on the stack while a pattern is read. Each step adds the parenthesis that it reads, if it
reads one that opens a group, and only a bound that allows no copies takes groups away.
-/

set_option autoImplicit false
set_option relaxedAutoImplicit false

namespace ExtendedRegex

/-! ### Tokens and bounds of a pattern -/

/-- The mode behind a token, if it can be read at all. -/
def Mode.after (mode : Mode) (kind : Token.Kind) (modified : Bool) : Mode :=
  match kind, mode with
  | .openBracket, _ => .bracket modified mode
  | .closeBracket, .bracket _ outer => outer
  | .openBound, _ => .bound
  | .closeBound, .bound => .normal
  | _, _ => mode

namespace Token

variable {pattern : Text} {mode : Mode} {offset : Nat} {t : Token}

theorem start_of_next (h : next pattern mode offset = .ok t) : t.start = offset := by
  cases standsAt_of_next h <;> rfl

theorem stop_le_behind (pattern : Text) (t : Token) : t.stop ≤ t.behind pattern := by
  rw [behind]
  split
  · exact Nat.le_succ _
  · exact Nat.le_refl _

theorem lt_behind_of_next (h : offset < pattern.size) (ht : next pattern mode offset = .ok t) :
    offset < t.behind pattern :=
  Nat.lt_of_lt_of_le (lt_stop_of_next h ht) (stop_le_behind pattern t)

/-- The tokens of a pattern from an offset on, each of them read in the mode that the tokens before
it leave. -/
def stream (pattern : Text) (mode : Mode) (offset : Nat) : List Token :=
  if h : offset < pattern.size then
    match ht : next pattern mode offset with
    | .error _ => []
    | .ok t =>
      have := lt_behind_of_next h ht
      t :: stream pattern (mode.after t.kind (t.modified pattern)) (t.behind pattern)
  else []
termination_by pattern.size - offset

theorem stream_of_next (h : offset < pattern.size) (ht : next pattern mode offset = .ok t) :
    stream pattern mode offset =
      t :: stream pattern (mode.after t.kind (t.modified pattern)) (t.behind pattern) := by
  rw [stream, dif_pos h]
  split
  · next hflaw =>
    rw [ht] at hflaw
    cases hflaw
  · next hnext =>
    rw [ht] at hnext
    cases hnext
    rfl

theorem stream_of_size_le (h : pattern.size ≤ offset) : stream pattern mode offset = [] := by
  rw [stream, dif_neg (Nat.not_lt.mpr h)]

theorem le_start_of_mem_stream (h : t ∈ stream pattern mode offset) : offset ≤ t.start := by
  fun_induction stream pattern mode offset with
  | case1 => cases h
  | case2 mode offset hoffset t' ht hlt ih =>
    rcases List.mem_cons.mp h with rfl | h
    · exact (start_of_next ht).ge
    · exact Nat.le_trans hlt.le (ih h)
  | case3 => cases h

theorem stream_pairwise (pattern : Text) (mode : Mode) (offset : Nat) :
    (stream pattern mode offset).Pairwise (·.start < ·.start) := by
  fun_induction stream pattern mode offset with
  | case1 | case3 => exact .nil
  | case2 mode offset hoffset t ht hlt ih =>
    refine List.pairwise_cons.mpr ⟨fun t' ht' ↦ ?_, ih⟩
    rw [start_of_next ht]
    exact Nat.lt_of_lt_of_le hlt (le_start_of_mem_stream ht')

theorem exists_next_of_mem_stream (h : t ∈ stream pattern mode offset) :
    ∃ mode', next pattern mode' t.start = .ok t := by
  fun_induction stream pattern mode offset with
  | case1 | case3 => cases h
  | case2 mode offset hoffset t' ht hlt ih =>
    rcases List.mem_cons.mp h with rfl | h
    · exact ⟨mode, (start_of_next ht).symm ▸ ht⟩
    · exact ih h

theorem eq_paren_of_lookup {u : CodeUnit} (h : mode.special.lookup u = some .openGroup) :
    u = '(' := by
  have hmem := mode.mem_special h
  cases mode with
  | normal =>
    simpa only [Mode.special, List.mem_cons, Prod.mk.injEq, reduceCtorEq, and_false, and_true,
      List.not_mem_nil, or_false, false_or] using hmem
  | bound | bracket => simp [Mode.special] at hmem

/-- What opens a group is a parenthesis, not one behind a backslash. -/
theorem paren_of_next (h : next pattern mode offset = .ok t) (ht : t.kind = .openGroup) :
    pattern[offset]? = some ('(' : CodeUnit) := by
  cases standsAt_of_next h with
  | endOfPattern | escaped | builtin | unit => cases ht
  | special hu _ hkind =>
    obtain rfl : _ = Kind.openGroup := ht
    rw [hu, eq_paren_of_lookup hkind]

/-- Where the parentheses among some tokens open groups. -/
def openings (tokens : List Token) : List Nat :=
  (tokens.filter (·.kind = .openGroup)).map start

theorem openings_cons (t : Token) (tokens : List Token) :
    openings (t :: tokens) = openings [t] ++ openings tokens := by
  rw [← List.singleton_append, openings, List.filter_append, List.map_append]
  rfl

theorem openings_singleton (h : t.kind ≠ .openGroup) : openings [t] = [] := by
  simp [openings, h]

theorem le_of_mem_openings {label : Nat} (h : label ∈ openings (stream pattern mode offset)) :
    offset ≤ label := by
  obtain ⟨t, ht, rfl⟩ := List.mem_map.mp h
  exact le_start_of_mem_stream (List.mem_filter.mp ht).1

end Token

/-- The offsets of the parentheses that open groups. -/
def openParens (pattern : Text) : List Nat := Token.openings (Token.stream pattern .normal 0)

theorem openParens_pairwise (pattern : Text) : (openParens pattern).Pairwise (· < ·) := by
  rw [openParens, Token.openings, List.pairwise_map]
  exact (Token.stream_pairwise pattern .normal 0).sublist List.filter_sublist

theorem paren_of_mem_openParens {pattern : Text} {offset : Nat} (h : offset ∈ openParens pattern) :
    pattern[offset]? = some ('(' : CodeUnit) := by
  obtain ⟨t, ht, rfl⟩ := List.mem_map.mp h
  obtain ⟨ht, hkind⟩ := List.mem_filter.mp ht
  obtain ⟨mode, hnext⟩ := Token.exists_next_of_mem_stream ht
  exact Token.paren_of_next hnext (by simpa using hkind)

namespace ReadState

variable {pattern : Text} {s s' : ReadState} {sharing sharing' : Sharing} {t : Token}

/-- The bound that a token ends, with its operand. -/
def bound? (s : ReadState) (t : Token) : Option (Bound × Regex) :=
  match t.kind, s.mode, boundOnTop t.start s.stack with
  | .closeBound, .bound, .ok (bound, operand, _) => some (bound, operand.tree)
  | _, _, _ => none

/-- The bounds that are read from some place in a pattern on, each with its operand. -/
def bounds (pattern : Text) (s : ReadState) (sharing : Sharing) : List (Bound × Regex) :=
  if h : s.offset < pattern.size then
    match hs : s.step pattern sharing, Token.next pattern s.mode s.offset with
    | .ok (s', sharing'), .ok t =>
      have := lt_offset_of_step h hs
      (s.bound? t).toList ++ bounds pattern s' sharing'
    | _, _ => []
  else []
termination_by pattern.size - s.offset

theorem bounds_of_step (h : s.offset < pattern.size)
    (ht : Token.next pattern s.mode s.offset = .ok t)
    (hs : s.step pattern sharing = .ok (s', sharing')) :
    bounds pattern s sharing = (s.bound? t).toList ++ bounds pattern s' sharing' := by
  rw [bounds, dif_pos h]
  split
  · next hstep hnext =>
    rw [hs] at hstep
    rw [ht] at hnext
    cases hstep
    cases hnext
    rfl
  · next hnone => exact absurd ht (hnone _ _ _ hs)

end ReadState

/-- The groups in the operands of the bounds that allow no copies. -/
def vanished (bounds : List (Bound × Regex)) : List Nat :=
  bounds.flatMap fun q ↦ if q.1.Vanishing then q.2.labels else []

theorem vanished_append (bounds bounds' : List (Bound × Regex)) :
    vanished (bounds ++ bounds') = vanished bounds ++ vanished bounds' :=
  List.flatMap_append

/-! ### Stacks after some steps -/

/-- A stack that comes after another one: groups have been opened, and others have vanished. -/
structure Renumbers (stack stack' : List Item) (opened gone : List Nat) : Prop where
  numbered : Numbered stack'
  labels_eq : stackLabels stack' = (stackLabels stack ++ opened).filter (· ∉ gone)

section Renumbers

variable {stack stack' stack'' below : List Item} {opened opened' gone gone' : List Nat}
  {p q : Part} {label : Nat}

theorem Keeps.renumbers (h : Keeps stack stack') (hstack : Numbered stack) :
    Renumbers stack stack' [] [] := by
  obtain ⟨hstack', hlabels⟩ := h hstack
  exact ⟨hstack', by simp [hlabels]⟩

/-- What has vanished before does not come back, if only new groups are opened. -/
theorem Renumbers.trans (h : Renumbers stack stack' opened gone)
    (h' : Renumbers stack' stack'' opened' gone') (hnew : ∀ label ∈ opened', label ∉ gone) :
    Renumbers stack stack'' (opened ++ opened') (gone ++ gone') := by
  refine ⟨h'.numbered, ?_⟩
  have hopened : opened'.filter (· ∉ gone) = opened' := by simpa using hnew
  have hgone : ∀ labels : List Nat, labels.filter (· ∉ gone ++ gone') =
      (labels.filter (· ∉ gone)).filter (· ∉ gone') := by
    intro labels
    rw [List.filter_filter]
    exact List.filter_congr fun label _ ↦ by simp [Bool.and_comm]
  rw [h'.labels_eq, h.labels_eq, hgone, ← List.append_assoc, List.filter_append (_ ++ opened),
    hopened]

theorem Renumbers.mem_or (h : Renumbers stack stack' opened gone)
    (hlabel : label ∈ stackLabels stack') : label ∈ stackLabels stack ∨ label ∈ opened := by
  rw [h.labels_eq] at hlabel
  exact List.mem_append.mp (List.mem_filter.mp hlabel).1

/-- A part without groups takes the place of one with groups. -/
theorem renumbers_vanish (hstack : Numbered (.part p :: below)) (hq : q.tree.openings = []) :
    Renumbers (.part p :: below) (.part q :: below) [] p.tree.labels := by
  obtain ⟨hnumbered, hlabels⟩ := keeps_push hq hstack.rest
  refine ⟨hnumbered, ?_⟩
  have hnodup := hstack.nodup
  have hbelow : (stackLabels below).filter (· ∉ p.tree.labels) = stackLabels below := by
    rw [List.filter_eq_self]
    exact fun label hlabel ↦ by simpa using List.disjoint_of_nodup_append hnodup hlabel
  have hoperand : p.tree.labels.filter (· ∉ p.tree.labels) = [] := by simp
  rw [hlabels, List.append_nil, stackLabels_cons, labels_part, List.filter_append, hbelow, hoperand,
    List.append_nil]

end Renumbers

namespace ReadState

variable {pattern : Text} {s s' : ReadState} {sharing sharing' : Sharing} {t : Token}
  {modified : Bool}

/-- A token that stands for a tree leaves the mode as it is. -/
theorem after_of_leaf {mode : Mode} {kind : Token.Kind} {tree : Regex}
    (h : mode.leaf? kind = some tree) (modified : Bool) : mode.after kind modified = mode := by
  cases kind with
  | unit | any | builtin | startAnchor | endAnchor => rfl
  | closeBracket | closeBound => cases mode <;> first | rfl | cases h
  | endOfPattern | quantifier | bar | openGroup | closeGroup | openBracket | openBound => cases h

theorem Reaction.mode_eq (h : Reaction s sharing t modified s' sharing') :
    s'.mode = s.mode.after t.kind modified := by
  cases h with
  | leaf htree => exact (after_of_leaf htree modified).symm
  | closeBracket hkind hmode => rw [hkind, hmode]; rfl
  | closeBound hkind hmode => rw [hkind, hmode]; rfl
  | stay hkind | quantify hkind | bar hkind | openGroup hkind | closeGroup hkind
  | openBracket hkind | openBound hkind => rw [hkind]; rfl

/-- Tokens that neither open a group nor end a bound leave the groups as they are. -/
theorem renumbers_of_keeps (hkeeps : Keeps s.stack s'.stack) (hs : Numbered s.stack)
    (hgroup : t.kind ≠ .openGroup) (hbound : t.kind = .closeBound → s.mode ≠ .bound) :
    Renumbers s.stack s'.stack (Token.openings [t]) (vanished (s.bound? t).toList) := by
  have hnone : s.bound? t = none := by
    unfold bound?
    split
    · next hkind hmode _ => exact absurd hmode (hbound hkind)
    · rfl
  rw [Token.openings_singleton hgroup, hnone]
  exact hkeeps.renumbers hs

theorem renumbers_openGroup (hkind : t.kind = .openGroup) (hs : Numbered s.stack)
    (hfresh : t.start ∉ stackLabels s.stack) (level : Nat) :
    Renumbers s.stack (.marker (.openGroup level t.start) :: s.stack) (Token.openings [t])
      (vanished (s.bound? t).toList) := by
  have hopened : Token.openings [t] = [t.start] := by simp [Token.openings, hkind]
  have hnone : s.bound? t = none := by simp [bound?, hkind]
  rw [hopened, hnone]
  exact ⟨hs.mark (by simpa using List.Nodup.concat hfresh hs.nodup), by simp [vanished]⟩

/-- A closing brace leaves the groups of its operand as they are, or lets all of them vanish. -/
theorem renumbers_closeBound (hkind : t.kind = .closeBound) (hmode : s.mode = .bound)
    {stack : List Item} (hclose : closeBound t.start s.stack sharing = .ok (stack, sharing'))
    (hs : Numbered s.stack) (hbound : ∀ q ∈ s.bound? t, q.1.Determinate) :
    Renumbers s.stack stack (Token.openings [t]) (vanished (s.bound? t).toList) := by
  obtain ⟨bound, operand, below, sharing₂, htop, rfl⟩ := exists_of_closeBound hclose
  have hread : s.bound? t = some (bound, operand.tree) := by rw [bound?, hkind, hmode, htop]
  obtain ⟨hkeeps, hordered⟩ := boundOnTop_spec htop
  obtain ⟨htop', -⟩ := hkeeps hs
  have hdeterminate : bound.Determinate := hbound _ hread
  have hcopies := bound.tree_expand operand sharing₂
  rw [Token.openings_singleton (by simp [hkind]), hread]
  by_cases hvanishing : bound.Vanishing
  · rw [(Bound.copies_eq_nil_iff hdeterminate hordered _).mpr hvanishing] at hcopies
    have hempty : (bound.expand operand sharing₂).1.tree.openings = [] := by rw [hcopies]; rfl
    have hgone := (hkeeps.renumbers hs).trans (renumbers_vanish htop' hempty) (by simp)
    simpa [vanished, hvanishing] using hgone
  · have hsome : bound.copies operand.tree ≠ [] := fun hnone ↦
      hvanishing ((Bound.copies_eq_nil_iff hdeterminate hordered _).mp hnone)
    have hsame := Regex.sameGroups_sequence hsome fun _ ↦ Bound.sameGroups_of_mem_copies
    rw [← hcopies] at hsame
    simpa [vanished, hvanishing] using (hkeeps.trans (keeps_sameGroups hsame)).renumbers hs

theorem Reaction.renumbers (h : Reaction s sharing t modified s' sharing')
    (hs : Numbered s.stack) (hfresh : t.start ∉ stackLabels s.stack)
    (hbound : ∀ q ∈ s.bound? t, q.1.Determinate) :
    Renumbers s.stack s'.stack (Token.openings [t]) (vanished (s.bound? t).toList) := by
  cases h with
  | openGroup hkind => exact renumbers_openGroup hkind hs hfresh _
  | closeBound hkind hmode hclose => exact renumbers_closeBound hkind hmode hclose hs hbound
  | leaf htree =>
    refine renumbers_of_keeps (keeps_push (Regex.openings_eq_nil (Mode.operands_leaf htree))) hs
      (fun hkind ↦ ?_) fun hkind hmode ↦ ?_
    · rw [hkind] at htree
      cases htree
    · rw [hkind, hmode] at htree
      cases htree
  | stay hkind => exact renumbers_of_keeps (.refl _) hs (by simp [hkind]) (by simp [hkind])
  | quantify hkind hquantify =>
    exact renumbers_of_keeps (keeps_quantify hquantify) hs (by simp [hkind]) (by simp [hkind])
  | bar hkind hclose =>
    exact renumbers_of_keeps ((keeps_closeBranch hclose).trans (keeps_mark rfl)) hs
      (by simp [hkind]) (by simp [hkind])
  | closeGroup hkind hclose =>
    exact renumbers_of_keeps (keeps_closeGroup hclose) hs (by simp [hkind]) (by simp [hkind])
  | openBracket hkind =>
    exact renumbers_of_keeps (keeps_mark rfl) hs (by simp [hkind]) (by simp [hkind])
  | closeBracket hkind hmode hclose =>
    exact renumbers_of_keeps (keeps_closeBracket hclose) hs (by simp [hkind]) (by simp [hkind])
  | openBound hkind =>
    exact renumbers_of_keeps (keeps_mark rfl) hs (by simp [hkind]) (by simp [hkind])

/-! ### Reading a whole pattern -/

theorem mem_stackLabels_of_vanished (hs : Numbered s.stack) {label : Nat}
    (h : label ∈ vanished (s.bound? t).toList) : label ∈ stackLabels s.stack := by
  unfold bound? at h
  split at h
  · next bound operand below _ _ htop =>
    have hlabels := ((boundOnTop_spec htop).1 hs).2
    have hoperand : label ∈ operand.tree.labels := by
      by_cases hvanishing : bound.Vanishing <;> simp_all [vanished]
    rw [← hlabels]
    exact List.mem_append_right _ hoperand
  · cases h

/-- The groups on the stack are those whose parentheses have been read, without those that have
vanished. -/
theorem run_renumbers (h : run pattern s sharing = .ok (s', sharing')) (hs : Numbered s.stack)
    (hbelow : ∀ label ∈ stackLabels s.stack, label < s.offset)
    (hbounds : ∀ q ∈ bounds pattern s sharing, q.1.Determinate) :
    Renumbers s.stack s'.stack (Token.openings (Token.stream pattern s.mode s.offset))
      (vanished (bounds pattern s sharing)) := by
  -- The labels on the stack lie below the offset, so a parenthesis that comes next is new, and what
  -- has vanished cannot be opened again.
  fun_induction run pattern s sharing with
  | case1 => cases h
  | case2 s sharing hoffset s₁ sharing₁ hstep _ ih =>
    obtain ⟨t, s₂, ht, hreact, rfl⟩ := exists_of_step hstep
    have hstart := Token.start_of_next ht
    have hlt := Token.lt_behind_of_next hoffset ht
    rw [bounds_of_step hoffset ht hstep] at hbounds ⊢
    have hfresh : t.start ∉ stackLabels s.stack := fun hmem ↦ by
      have := hbelow _ hmem
      omega
    have hreaction := reaction_of_react hreact
    have hmode := hreaction.mode_eq
    have hfirst := hreaction.renumbers hs hfresh fun q hq ↦
      hbounds q (List.mem_append_left _ (Option.mem_toList.mpr hq))
    have hbelow' : ∀ label ∈ stackLabels s₂.stack, label < t.behind pattern := by
      intro label hlabel
      rcases hfirst.mem_or hlabel with hlabel | hlabel
      · exact Nat.lt_trans (hbelow label hlabel) hlt
      · obtain ⟨t', ht', rfl⟩ := List.mem_map.mp hlabel
        obtain rfl := List.mem_singleton.mp (List.mem_filter.mp ht').1
        exact hstart ▸ hlt
    have hrest := ih h hfirst.numbered hbelow' fun q hq ↦
      hbounds q (List.mem_append_right _ hq)
    rw [Token.stream_of_next hoffset ht, Token.openings_cons, vanished_append, ← hmode]
    refine hfirst.trans hrest fun label hlabel hgone ↦ ?_
    have := Token.le_of_mem_openings hlabel
    have := hbelow label (mem_stackLabels_of_vanished hs hgone)
    omega
  | case3 s sharing hoffset =>
    cases h
    rw [Token.stream_of_size_le (Nat.not_lt.mp hoffset), bounds, dif_neg hoffset]
    exact (Keeps.refl _).renumbers hs

end ReadState

end ExtendedRegex
