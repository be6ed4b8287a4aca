import ExtendedRegex.Proofs.StackShape

/-!
The lowest marker on the stack. When a pattern ends with groups open, the marker nearest to the
bottom is the one that is reported. It is the last bar outside of everything that has been opened,
as long as there is such a bar; without one, it is the outermost opening that has no closing.
-/

set_option autoImplicit false
set_option relaxedAutoImplicit false

namespace ExtendedRegex

/-- The marker nearest to the bottom of a stack. -/
def lowestMarker? (stack : List Item) : Option Marker := stack.reverse.findSome? Item.marker?

/-- The offset of the lowest marker, if this is a bar. -/
def groundBar? (stack : List Item) : Option Nat :=
  match lowestMarker? stack with
  | some (.bar offset) => some offset
  | _ => none

section Markers

variable {above below stack : List Item} {m : Marker} {p : Part}

theorem lowestMarker?_append (above below : List Item) :
    lowestMarker? (above ++ below) = (lowestMarker? below).or (lowestMarker? above) := by
  rw [lowestMarker?, List.reverse_append, List.findSome?_append]
  rfl

theorem lowestMarker?_marker (m : Marker) (below : List Item) :
    lowestMarker? (.marker m :: below) = (lowestMarker? below).or (some m) :=
  lowestMarker?_append [.marker m] below

@[simp] theorem lowestMarker?_part (p : Part) (below : List Item) :
    lowestMarker? (.part p :: below) = lowestMarker? below :=
  (lowestMarker?_append [.part p] below).trans (Option.or_none)

@[simp] theorem groundBar?_part (p : Part) (below : List Item) :
    groundBar? (.part p :: below) = groundBar? below := by
  rw [groundBar?, lowestMarker?_part, groundBar?]

/-- What stands above an opening does not matter, and neither does the opening itself. -/
theorem groundBar?_of_suffix (h : .marker m :: below <:+ stack)
    (hm : (Item.marker m).isBar = false) : groundBar? stack = groundBar? below := by
  obtain ⟨above, rfl⟩ := h
  have hlowest : lowestMarker? (above ++ .marker m :: below) =
      (lowestMarker? below).or (some m) := by
    rw [lowestMarker?_append, lowestMarker?_marker, Option.or_assoc, Option.some_or]
  rw [groundBar?, hlowest, groundBar?]
  cases lowestMarker? below with
  | some => rfl
  | none =>
    cases m with
    | bar => cases hm
    | openGroup | openBracket | openBound => rfl

theorem groundBar?_opening (hm : (Item.marker m).isBar = false) :
    groundBar? (.marker m :: below) = groundBar? below :=
  groundBar?_of_suffix (List.suffix_refl _) hm

end Markers

/-! ### What reductions leave -/

section Reductions

variable {level closing : Nat} {acc : Option Part} {stack stack' below : List Item}
  {s s' : Sharing}

theorem groundBar?_of_closeBracket {negated : Bool}
    (h : closeBracket negated level closing stack = .ok stack') :
    groundBar? stack' = groundBar? stack := by
  obtain ⟨⟨set, below⟩, hgather, h⟩ := exists_of_bind_eq_ok h
  obtain ⟨l, offset, hsuffix⟩ := suffix_of_gatherSet hgather
  rw [groundBar?_of_suffix hsuffix rfl, ← Except.ok.inj h]
  split <;> simp

theorem groundBar?_of_boundOperand {p : Part} (h : boundOperand stack = .ok (p, below)) :
    groundBar? below = groundBar? stack := by
  cases stack with
  | nil =>
    cases h
    rfl
  | cons item rest =>
    cases item with
    | part =>
      cases h
      exact (groundBar?_part _ _).symm
    | marker => cases h

theorem groundBar?_of_closeBound (h : closeBound closing stack s = .ok (stack', s')) :
    groundBar? stack' = groundBar? stack := by
  obtain ⟨⟨opening, units, below⟩, hunits, h⟩ := exists_of_bind_eq_ok h
  obtain ⟨bound, -, h⟩ := exists_of_bind_eq_ok h
  obtain ⟨⟨operand, rest⟩, hoperand, h⟩ := exists_of_bind_eq_ok h
  rw [groundBar?_of_suffix (suffix_of_boundUnits hunits) rfl, ← groundBar?_of_boundOperand hoperand]
  dsimp only at h
  split at h
  · cases h
  · cases h
    exact groundBar?_part _ _

theorem groundBar?_of_quantify {q : Quantifier} {greedy : Bool} {offset : Nat}
    (h : quantify q greedy offset stack s = .ok (stack', s')) :
    groundBar? stack' = groundBar? stack := by
  cases stack with
  | nil => cases h
  | cons item below =>
    cases item with
    | part =>
      cases h
      rw [groundBar?_part, groundBar?_part]
    | marker => cases h

/-- A bar that is put on a closed branch is the lowest marker if and only if nothing is open. -/
theorem groundBar?_bar {opened : List Token} {offset : Nat}
    (hs : Nested .normal level opened stack)
    (h : closeBranch level none stack s = .ok (stack', s')) :
    groundBar? (.marker (.bar offset) :: stack') =
      if opened = [] then some offset else groundBar? stack := by
  obtain ⟨p, below, sharing₁, hclosed, hbase, hbelow⟩ := hs.exists_closeBranch none s
  cases hclosed.symm.trans h
  obtain ⟨q, rest, hstack, hsuffix⟩ := suffix_of_closeBranch h
  obtain ⟨-, rfl⟩ := List.cons.inj hstack
  rcases hbase with rfl | ⟨l, o, outer, rfl, -⟩
  · cases hbelow
    rfl
  · cases hbelow with
    | group =>
      rw [if_neg (List.cons_ne_nil _ _), groundBar?_of_suffix hsuffix rfl]
      exact groundBar?_of_suffix ((List.suffix_cons _ _).trans (List.suffix_cons _ _)) rfl

end Reductions

/-! ### The last bar outside -/

namespace Token

/-- The last bar among some tokens that has nothing open around it. -/
def outerBar? (opened : List Token) : List Token → Option Token
  | [] => none
  | t :: rest =>
    (outerBar? (track opened t) rest).or (if t.kind = .bar ∧ opened = [] then some t else none)

theorem outerBar?_concat (opened tokens : List Token) (t : Token) :
    outerBar? opened (tokens ++ [t]) =
      (if t.kind = .bar ∧ tokens.foldl track opened = [] then some t else none).or
        (outerBar? opened tokens) := by
  induction tokens generalizing opened with
  | nil => exact Option.or_none.symm
  | cons u tokens ih =>
    rw [List.cons_append, outerBar?, ih, outerBar?, List.foldl_cons, Option.or_assoc]

theorem exists_of_outerBar? {opened tokens : List Token} {bar : Token}
    (h : outerBar? opened tokens = some bar) :
    ∃ before behind, tokens = before ++ bar :: behind ∧ bar.kind = .bar ∧
      before.foldl track opened = [] := by
  induction tokens generalizing opened with
  | nil => cases h
  | cons t tokens ih =>
    rcases Option.or_eq_some_iff.mp h with hlater | ⟨-, hfirst⟩
    · obtain ⟨before, behind, rfl, hbar⟩ := ih hlater
      exact ⟨t :: before, behind, rfl, hbar⟩
    · obtain ⟨⟨hkind, hopened⟩, heq⟩ := Option.ite_none_right_eq_some.mp hfirst
      obtain rfl := Option.some.inj heq
      exact ⟨[], tokens, rfl, hkind, hopened⟩

theorem mem_of_mem_track {opened : List Token} {t u : Token} (h : t ∈ track opened u) :
    t = u ∨ t ∈ opened := by
  cases hopens : u.kind.opens with
  | true =>
    rw [track_of_opens hopens] at h
    exact List.mem_cons.mp h
  | false =>
    cases opened with
    | nil => simp [track, hopens] at h
    | cons inner outer =>
      simp only [track, hopens, Bool.false_eq_true, if_false] at h
      split at h
      · exact .inr (List.mem_cons_of_mem _ h)
      · exact .inr h

theorem mem_of_mem_foldl_track {opened tokens : List Token} {t : Token}
    (h : t ∈ tokens.foldl track opened) : t ∈ tokens ∨ t ∈ opened := by
  induction tokens generalizing opened with
  | nil => exact .inr h
  | cons u tokens ih =>
    rcases ih h with hlater | htrack
    · exact .inl (List.mem_cons_of_mem _ hlater)
    · rcases mem_of_mem_track htrack with rfl | hopened
      · exact .inl List.mem_cons_self
      · exact .inr hopened

end Token

namespace ReadState

variable {pattern : Text} {s s' : ReadState} {sharing sharing' : Sharing} {t : Token}
  {modified : Bool} {opened tokens : List Token}

/-- Only a bar with nothing open around it becomes the lowest marker in place of another one. -/
theorem Reaction.groundBar?_eq (h : Reaction s sharing t modified s' sharing')
    (hread : s.mode.Reads t.kind) (hs : Nested s.mode s.level opened s.stack) :
    groundBar? s'.stack =
      if t.kind = .bar ∧ opened = [] then some t.start else groundBar? s.stack := by
  cases h with
  | bar hkind hclose =>
    have hmode : s.mode = .normal := hread.eq_normal (by rw [hkind]; rfl)
    rw [hmode] at hs
    simpa [hkind] using groundBar?_bar hs hclose
  | leaf htree =>
    have hkind : t.kind ≠ .bar := by
      intro hkind
      rw [hkind] at htree
      cases htree
    rw [if_neg fun h ↦ hkind h.1]
    exact groundBar?_part _ _
  | closeGroup hkind hclose =>
    obtain ⟨p, l, offset, below, rfl, hsuffix⟩ := suffix_of_closeGroup hclose
    rw [if_neg (by simp [hkind]), groundBar?_of_suffix hsuffix rfl]
    exact groundBar?_part _ _
  | stay hkind => rw [if_neg (by simp [hkind])]
  | quantify hkind hquantify =>
    rw [if_neg (by simp [hkind])]
    exact groundBar?_of_quantify hquantify
  | closeBracket hkind _ hclose =>
    rw [if_neg (by simp [hkind])]
    exact groundBar?_of_closeBracket hclose
  | closeBound hkind _ hclose =>
    rw [if_neg (by simp [hkind])]
    exact groundBar?_of_closeBound hclose
  | openGroup hkind | openBracket hkind | openBound hkind =>
    rw [if_neg (by simp [hkind])]
    exact groundBar?_opening rfl

theorem Reached.groundBar?_eq (h : Reached pattern tokens s sharing) :
    groundBar? s.stack = (Token.outerBar? [] tokens).map Token.start := by
  induction h with
  | start => rfl
  | step h _ ht hs ih =>
    obtain ⟨t, s₁, ht', hreact, rfl⟩ := exists_of_step hs
    cases ht'.symm.trans ht
    have hground := (reaction_of_react hreact).groundBar?_eq (Mode.reads_of_next ht) h.nested
    rw [ih] at hground
    rw [Token.outerBar?_concat]
    refine hground.trans ?_
    rw [Token.unclosed]
    split <;> rfl

end ReadState

/-! ### The end of a pattern -/

section End

variable {mode : Mode} {level : Nat} {opened : List Token} {stack below : List Item} {t : Token}
  {m : Marker}

/-- An opening on the stack is the lowest marker only where nothing else is open. -/
theorem offset_lowestMarker?_opening (hm : (Item.marker m).isBar = false)
    (hoffset : m.offset = t.start)
    (h : (lowestMarker? below).map Marker.offset =
      (groundBar? below).or (opened.getLast?.map Token.start)) :
    (lowestMarker? (.marker m :: below)).map Marker.offset =
      (groundBar? (.marker m :: below)).or ((t :: opened).getLast?.map Token.start) := by
  rw [lowestMarker?_marker, groundBar?_opening hm, List.getLast?_cons]
  cases hlowest : lowestMarker? below with
  | none =>
    rw [hlowest] at h
    obtain ⟨hground, hlast⟩ := Option.or_eq_none_iff.mp h.symm
    rw [hground, Option.map_eq_none_iff.mp hlast]
    exact congrArg some hoffset
  | some lowest =>
    rw [hlowest] at h
    cases hground : groundBar? below with
    | some =>
      rw [hground] at h
      exact h
    | none =>
      rw [hground] at h
      obtain ⟨outermost, hlast, hstart⟩ := Option.map_eq_some_iff.mp h.symm
      rw [hlast]
      exact congrArg some hstart.symm

/-- Below a bar there is an opening or nothing, so the lowest marker is a bar with nothing open
around it or else the outermost opening. -/
theorem Nested.offset_lowestMarker? (h : Nested mode level opened stack) :
    (lowestMarker? stack).map Marker.offset =
      (groundBar? stack).or (opened.getLast?.map Token.start) := by
  induction h with
  | empty => rfl
  | part _ p ih | elementary _ _ _ ih =>
    rw [lowestMarker?_part, groundBar?_part]
    exact ih
  | group _ _ _ ih | bracket _ _ _ _ _ ih | bound _ _ ih =>
    exact offset_lowestMarker?_opening rfl rfl ih
  | bar _ _ p offset ih =>
    rw [groundBar?, lowestMarker?_marker, lowestMarker?_part]
    cases hlowest : lowestMarker? _ with
    | none => rfl
    | some m =>
      rw [groundBar?, hlowest] at ih
      exact ih

/-- With a group open at the end of a pattern, the lowest marker is reported. -/
theorem ReadState.result_of_open {s : ReadState} (hmode : s.mode = .normal)
    (hs : Nested s.mode s.level opened s.stack) (hopened : opened ≠ []) (sharing : Sharing) :
    ∃ m, lowestMarker? s.stack = some m ∧ s.result sharing = .error ⟨.malformed, m.offset⟩ := by
  rw [hmode] at hs
  obtain ⟨p, below, sharing', hclose, hbase, hbelow⟩ := hs.exists_closeBranch none sharing
  obtain ⟨q, rest, hstack, above, habove⟩ := suffix_of_closeBranch hclose
  obtain ⟨-, rfl⟩ := List.cons.inj hstack
  rcases hbase with rfl | ⟨l, offset, outer, rfl, -⟩
  · generalize s.level = level at hbelow
    cases hbelow
    exact absurd rfl hopened
  · obtain ⟨m, hm⟩ : ∃ m, lowestMarker? (.marker (.openGroup l offset) :: outer) = some m := by
      rw [lowestMarker?_marker]
      cases lowestMarker? outer <;> exact ⟨_, rfl⟩
    refine ⟨m, ?_, ?_⟩
    · rw [← habove, lowestMarker?_append, hm, Option.some_or]
    · have hmarker : List.findSome? Item.marker?
          (.part p :: .marker (.openGroup l offset) :: outer : List Item).reverse = some m := by
        rw [← hm, ← lowestMarker?_part p, lowestMarker?]
      simp only [result, hclose, bind, Except.bind]
      rw [hmarker]
      rfl

/-- Where groups are open at the end of a pattern, the last bar outside of them is reported, and the
outermost opening if there is no such bar. -/
theorem ReadState.Reached.result_of_open {pattern : Text} {tokens : List Token} {s : ReadState}
    {sharing : Sharing} (h : Reached pattern tokens s sharing) (hmode : s.mode = .normal)
    (hopened : Token.unclosed tokens ≠ []) :
    ∃ t, (Token.outerBar? [] tokens).or (Token.unclosed tokens).getLast? = some t ∧
      s.result sharing = .error ⟨.malformed, t.start⟩ := by
  obtain ⟨m, hm, hresult⟩ := ReadState.result_of_open hmode h.nested hopened sharing
  have hoffset := h.nested.offset_lowestMarker?
  rw [hm, h.groundBar?_eq, ← Option.map_or] at hoffset
  obtain ⟨t, ht, hstart⟩ := Option.map_eq_some_iff.mp hoffset.symm
  exact ⟨t, ht, hstart ▸ hresult⟩

end End

end ExtendedRegex
