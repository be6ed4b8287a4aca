import ExtendedRegex.Proofs.Counts
import ExtendedRegex.Proofs.Reading

/-!
Reading what is written. However patterns are nested, the text of a pattern is read back as its
tree: each piece leaves one part on the stack, whatever is below, and what closes a branch or a
group joins the parts above the last mark.
-/

set_option autoImplicit false
set_option relaxedAutoImplicit false

namespace ExtendedRegex

/-! ### Closing a branch -/

/-- Parts joined one after another, nested to the right. -/
def Part.chain : List Part → Sharing → Part × Sharing
  | [], s => (leaf .empty, s)
  | [p], s => (p, s)
  | p :: q :: rest, s => p.join .cat (chain (q :: rest) s).1 (chain (q :: rest) s).2

theorem Sharing.makes_chain {s : Sharing} (h : s.Sound) {parts : List Part}
    (hparts : ∀ p ∈ parts, s.Holds p) :
    s.Makes (Part.chain parts s) (Regex.chain (parts.map Part.tree)) := by
  induction parts with
  | nil => exact ⟨rfl, h.holds_leaf rfl, .refl h⟩
  | cons p rest ih =>
    have hp := hparts p List.mem_cons_self
    have hrest := ih fun q hq ↦ hparts q (List.mem_cons_of_mem _ hq)
    cases rest with
    | nil => exact ⟨rfl, hp, .refl h⟩
    | cons q rest =>
      have hjoin := makes_join hrest.grows.sound (hrest.grows.holds p hp) hrest.holds .cat rfl
      rw [hrest.tree_eq] at hjoin
      exact hrest.grows.makes hjoin

/-- What takes one part after another from the stack joins them. -/
theorem close_parts (close : Option Part → List Item → Sharing → Except Flaw Reduced)
    (hclose : ∀ acc p below s, close acc (.part p :: below) s =
      close (some (p.before acc s).1) below (p.before acc s).2)
    (p : Part) (rest : List Part) (below : List Item) (s : Sharing) :
    close none ((p :: rest).reverse.map .part ++ below) s =
      close (some (Part.chain (p :: rest) s).1) below (Part.chain (p :: rest) s).2 := by
  induction rest generalizing p below with
  | nil => exact hclose none p below s
  | cons q rest ih =>
    rw [List.reverse_cons, List.map_append, List.append_assoc, ih q]
    exact hclose _ _ _ _

/-- Something that takes parts from the stack stops at a mark. -/
def Marked (stack : List Item) : Prop := ∀ p below, stack ≠ .part p :: below

section Closing

variable {level closing : Nat} {stack : List Item} {s : Sharing}

/-- A branch without parts is empty. -/
theorem closeBranch_none (h : Marked stack) :
    closeBranch level none stack s = closeBranch level (some (.leaf .empty)) stack s := by
  cases stack with
  | nil => rfl
  | cons item below =>
    cases item with
    | part p => exact absurd rfl (h p below)
    | marker m =>
      cases m with
      | openGroup | openBracket | openBound => rfl
      | bar =>
        cases below with
        | nil => rfl
        | cons item below => cases item <;> rfl

theorem closeGroup_none (h : Marked stack) :
    closeGroup level closing none stack s =
      closeGroup level closing (some (.leaf .empty)) stack s := by
  cases stack with
  | nil => rfl
  | cons item below =>
    cases item with
    | part p => exact absurd rfl (h p below)
    | marker m =>
      cases m with
      | openGroup | openBracket | openBound => rfl
      | bar =>
        cases below with
        | nil => rfl
        | cons item below =>
          cases item with
          | part left => rw [closeGroup, closeGroup]; rfl
          | marker => rfl

theorem closeBranch_parts (h : Marked stack) (parts : List Part) :
    closeBranch level none (parts.reverse.map .part ++ stack) s =
      closeBranch level (some (Part.chain parts s).1) stack (Part.chain parts s).2 := by
  cases parts with
  | nil => exact closeBranch_none h
  | cons p rest => exact close_parts (closeBranch level) (fun _ _ _ _ ↦ rfl) p rest stack s

theorem closeGroup_parts (h : Marked stack) (parts : List Part) :
    closeGroup level closing none (parts.reverse.map .part ++ stack) s =
      closeGroup level closing (some (Part.chain parts s).1) stack (Part.chain parts s).2 := by
  cases parts with
  | nil => exact closeGroup_none h
  | cons p rest =>
    exact close_parts (closeGroup level closing) (fun _ _ _ _ ↦ by rw [closeGroup]) p rest stack s

/-- What a pattern, or the inside of a group, is read on top of. -/
def Base (level : Nat) (stack : List Item) : Prop :=
  stack = [] ∨ ∃ l offset below, stack = .marker (.openGroup l offset) :: below ∧ l + 1 = level

theorem Base.marked (h : Base level stack) : Marked stack := by
  rintro p below rfl
  rcases h with h | ⟨l, offset, _, h, -⟩ <;> simp at h

theorem Base.closeBranch (h : Base level stack) (p : Part) :
    closeBranch level (some p) stack s = .ok (.part p :: stack, s) := by
  rcases h with rfl | ⟨l, offset, below, rfl, hlevel⟩
  · rfl
  · rw [ExtendedRegex.closeBranch, if_pos hlevel]
    rfl

variable (level stack s) in
/-- Items on a base that are closed to one part with this tree. -/
def Closes (items : List Item) (e : Regex) : Prop :=
  ∃ x, s.Makes x e ∧ closeBranch level none items s = .ok (.part x.1 :: stack, x.2) ∧
    ∀ closing, closeGroup level closing none items s =
      closeGroup level closing (some x.1) stack x.2

theorem closes_parts (hbase : Base level stack) (h : s.Sound) {parts : List Part}
    (hparts : ∀ p ∈ parts, s.Holds p) :
    Closes level stack s (parts.reverse.map .part ++ stack) (.chain (parts.map Part.tree)) := by
  refine ⟨_, Sharing.makes_chain h hparts, ?_, fun closing ↦ closeGroup_parts hbase.marked parts⟩
  rw [closeBranch_parts hbase.marked, hbase.closeBranch]

variable (level stack) in
/-- The branch behind a bar is joined with the part in front of it. -/
theorem closes_bar (h : s.Sound) {parts : List Part} (hparts : ∀ p ∈ parts, s.Holds p)
    {left : Part} (hleft : s.Holds left) (bar : Nat) :
    Closes level stack s (parts.reverse.map .part ++ .marker (.bar bar) :: .part left :: stack)
      (.alt left.tree (.chain (parts.map Part.tree))) := by
  have hmarked : Marked (.marker (.bar bar) :: .part left :: stack) := fun _ _ heq ↦ by simp at heq
  have hchain := Sharing.makes_chain h hparts
  have hjoin := Sharing.makes_join hchain.grows.sound (hchain.grows.holds left hleft) hchain.holds
    .alt rfl
  rw [hchain.tree_eq] at hjoin
  refine ⟨_, hchain.grows.makes hjoin, ?_, fun closing ↦ ?_⟩
  · rw [closeBranch_parts hmarked]
    rfl
  · rw [closeGroup_parts hmarked, closeGroup]
    rfl

end Closing

/-! ### Trees of their own -/

namespace ReadState

variable {pattern : Text} {offset level : Nat} {mode : Mode} {stack : List Item}
  {sharing : Sharing} {t : Token} {tree : Regex}

/-- Items that are closed to one part are the whole result, if nothing is below them. -/
theorem result_of_closes {e : Regex} (h : Closes level [] sharing stack e)
    (hsize : e.nodeCount ≤ maxExpandedSize) :
    result ⟨offset, mode, level, stack⟩ sharing = .ok e := by
  obtain ⟨x, hx, hclose, -⟩ := h
  have hresult := result_part hx.grows.sound hx.holds (hx.tree_eq ▸ hsize) offset mode level
  have hpart : closeBranch level none [.part x.1] x.2 = .ok ([.part x.1], x.2) := rfl
  rw [result, hclose, ← hx.tree_eq, ← hresult, result, hpart]

/-- A token that stands for a tree of its own. -/
theorem run_push (h : offset < pattern.size) (ht : Token.next pattern mode offset = .ok t)
    (hmodifier : t.kind.modifier? = none)
    (hreact : ∀ s sharing modified, react s sharing t modified = .ok (s.pushTree tree, sharing)) :
    run pattern ⟨offset, mode, level, stack⟩ sharing =
      run pattern ⟨t.stop, mode, level, .part (.leaf tree) :: stack⟩ sharing := by
  rw [run_of_next h ht (hreact _ _ _), Token.behind_of_none hmodifier]
  rfl

end ReadState

namespace Written

open ReadState (run run_of_next run_bind_of_next run_push)

variable {pattern : Text} {offset level : Nat} {stack : List Item} {s : Sharing} {p : Part}
  {rest : List CodeUnit}

/-! ### Marks -/

def unitItem (u : CodeUnit) : Item := .part (.leaf (.literal (.unit u)))

/-- Units that are written one after another are put on the stack one after another. -/
theorem run_written {mode : Mode} {units : List CodeUnit}
    (h : pattern.toList.drop offset = units.flatMap mode.write ++ rest) :
    run pattern ⟨offset, mode, level, stack⟩ s =
      run pattern ⟨offset + (units.flatMap mode.write).length, mode, level,
        units.reverse.map unitItem ++ stack⟩ s := by
  induction units generalizing offset stack with
  | nil => rfl
  | cons u units ih =>
    rw [List.flatMap_cons, List.append_assoc] at h
    obtain ⟨v, later, hwrite⟩ := mode.exists_write u
    have hoffset : offset < pattern.size := Text.lt_size_of_drop (by rw [h, hwrite]; rfl)
    rw [run_push hoffset (Token.next_write h) rfl fun _ _ _ ↦ rfl,
      ih (Text.drop_add_of_drop h), List.flatMap_cons, List.length_append, ← Nat.add_assoc]
    simp [unitItem]

/-- Between braces, each unit is put on the stack. -/
theorem run_units {units : List CodeUnit} (hplain : ∀ u ∈ units, Plain u)
    (h : pattern.toList.drop offset = units ++ rest) :
    run pattern ⟨offset, .bound, level, stack⟩ s =
      run pattern ⟨offset + units.length, .bound, level,
        units.reverse.map unitItem ++ stack⟩ s := by
  induction units generalizing offset stack with
  | nil => rfl
  | cons u units ih =>
    obtain ⟨hbrace, hslash⟩ := (hplain u List.mem_cons_self).lookup_eq_none
    rw [List.cons_append] at h
    rw [run_push (Text.lt_size_of_drop h) (Token.next_unit h hslash hbrace) rfl fun _ _ _ ↦ rfl,
      ih (fun v hv ↦ hplain v (List.mem_cons_of_mem _ hv)) (Text.drop_succ_of_drop h)]
    simp [unitItem, Nat.add_assoc, Nat.add_comm 1]

theorem boundUnits_map (closing opening : Nat) (units units' : List CodeUnit) (below : List Item) :
    boundUnits closing units' (units.map unitItem ++ .marker (.openBound opening) :: below) =
      .ok (opening, units.reverse ++ units', below) := by
  induction units generalizing units' with
  | nil => rfl
  | cons u units ih =>
    rw [List.map_cons, List.cons_append, unitItem, Part.leaf, boundUnits, ih, List.reverse_cons,
      List.append_assoc]
    rfl

/-- What a bound that has been read does to the stack: the expansion takes the place of the operand,
unless it is too large. -/
def replaceOperand (opening : Nat) (bound : Bound) (stack : List Item) (s : Sharing) :
    Except Flaw Reduced := do
  let (operand, below) ← boundOperand stack
  let (size, s) := s.measure operand.place
  if bound.copies?.any (maxExpandedSize < size * ·) then throw ⟨.expansionTooLarge, opening⟩
  let (p, s) := bound.expand operand s
  return (.part p :: below, s)

theorem closeBound_unitItems (closing opening : Nat) (units : List CodeUnit) :
    closeBound closing (units.reverse.map unitItem ++ .marker (.openBound opening) :: stack) s =
      Bound.read opening closing units >>= fun bound ↦ replaceOperand opening bound stack s := by
  simp only [closeBound, boundUnits_map, List.reverse_reverse, List.append_nil, replaceOperand,
    bind, Except.bind]

theorem replaceOperand_bound (r : Repetition) {operand : Part} {below : List Item}
    (hoperand : boundOperand stack = .ok (operand, below))
    (hfits : (s.measure operand.place).1 * r.charge ≤ maxExpandedSize) (opening : Nat) :
    replaceOperand opening r.bound stack s =
      .ok (.part (r.bound.expand operand (s.measure operand.place).2).1 :: below,
        (r.bound.expand operand (s.measure operand.place).2).2) := by
  have hlarge : ¬ maxExpandedSize < (s.measure operand.place).1 * r.charge := Nat.not_lt.mpr hfits
  simp only [replaceOperand, hoperand, r.charge_bound, bind, Except.bind, pure, Except.pure,
    Option.any_some, hlarge, decide_false, Bool.false_eq_true, if_false]

/-- Closing a repetition puts the copies in the place of the operand. -/
theorem exists_closeBound (h : s.Sound) (hp : s.Holds p) (r : Repetition)
    (hfits : p.tree.nodeCount * r.charge ≤ maxExpandedSize) (closing opening : Nat)
    (stack : List Item) :
    ∃ x, s.Makes x (.sequence (r.copies p.tree)) ∧
      closeBound closing (r.counts.reverse.map unitItem ++
        .marker (.openBound opening) :: .part p :: stack) s = .ok (.part x.1 :: stack, x.2) := by
  obtain ⟨hsize, hgrows⟩ := Sharing.measure_spec h hp
  have hexpand := Bound.makes_expand hgrows.sound (hgrows.holds p hp) r.bound
  rw [r.copies_bound] at hexpand
  rw [← hsize] at hfits
  have hoperand : boundOperand (.part p :: stack) = .ok (p, stack) := rfl
  refine ⟨_, hgrows.makes hexpand, ?_⟩
  rw [closeBound_unitItems, r.read_bound]
  exact replaceOperand_bound r hoperand hfits opening

/-- What stands between braces is on the stack when they are closed. -/
theorem run_braces {units : List CodeUnit} (hplain : ∀ u ∈ units, Plain u)
    (hpattern : pattern.toList.drop offset = ('{' : CodeUnit) ::
      (units ++ ('}' : CodeUnit) :: rest)) :
    run pattern ⟨offset, .normal, level, stack⟩ s =
      closeBound (offset + 1 + units.length)
          (units.reverse.map unitItem ++ .marker (.openBound offset) :: stack) s >>=
        fun (stack, s) ↦ run pattern ⟨offset + 1 + units.length + 1, .normal, level, stack⟩ s := by
  have hunits := Text.drop_succ_of_drop hpattern
  have hclosing := Text.drop_add_of_drop hunits
  have hopen : run pattern ⟨offset, .normal, level, stack⟩ s =
      run pattern ⟨offset + 1, .bound, level, .marker (.openBound offset) :: stack⟩ s := by
    rw [run_of_next (Text.lt_size_of_drop hpattern)
      (Token.next_special hpattern (by decide) rfl) rfl, Token.behind_of_none rfl]
    rfl
  rw [hopen, run_units hplain hunits, run_bind_of_next (Text.lt_size_of_drop hclosing)
    (Token.next_special hclosing (by decide) rfl), Token.behind_of_none rfl]
  cases hclose : closeBound (offset + 1 + units.length)
      (units.reverse.map unitItem ++ .marker (.openBound offset) :: stack) s with
  | error flaw => simp only [ReadState.react, hclose, bind, Except.bind]
  | ok r => simp only [ReadState.react, hclose, bind, Except.bind, pure, Except.pure]

theorem run_repetition (h : s.Sound) (hp : s.Holds p) (r : Repetition)
    (hfits : p.tree.nodeCount * r.charge ≤ maxExpandedSize)
    (hpattern : pattern.toList.drop offset = (Mark.repetition r).render ++ rest) :
    ∃ x, s.Makes x (.sequence (r.copies p.tree)) ∧
      run pattern ⟨offset, .normal, level, .part p :: stack⟩ s =
        run pattern ⟨offset + (Mark.repetition r).render.length, .normal, level,
          .part x.1 :: stack⟩ x.2 := by
  rw [Mark.render, List.cons_append, List.append_assoc] at hpattern
  obtain ⟨x, hx, hclose⟩ :=
    exists_closeBound h hp r hfits (offset + 1 + r.counts.length) offset stack
  refine ⟨x, hx, ?_⟩
  rw [run_braces (fun u hu ↦ plain_of_mem_text (r.counts_eq ▸ hu)) hpattern, hclose]
  simp [Mark.render, Nat.add_assoc, Nat.add_comm 1, bind, Except.bind]

/-- A quantifier that is greedy must not be followed by a question mark. -/
theorem run_quantifier (h : s.Sound) (hp : s.Holds p) (q : Quantifier) (greedy : Bool)
    (hrest : greedy = true → rest.head? ≠ some ('?' : CodeUnit))
    (hpattern : pattern.toList.drop offset = (Mark.quantifier q greedy).render ++ rest) :
    ∃ x, s.Makes x (q.apply greedy p.tree) ∧
      run pattern ⟨offset, .normal, level, .part p :: stack⟩ s =
        run pattern ⟨offset + (Mark.quantifier q greedy).render.length, .normal, level,
          .part x.1 :: stack⟩ x.2 := by
  have hsize : (q.apply greedy p.tree).nodeCount = 1 + p.tree.nodeCount := by cases q <;> rfl
  refine ⟨_, Sharing.makes_wrap h hp (q.apply greedy) hsize, ?_⟩
  rw [Mark.render, List.cons_append] at hpattern
  have hnext : Token.next pattern .normal offset = .ok ⟨.quantifier q, offset, offset + 1⟩ :=
    Token.next_special hpattern (by cases q <;> decide) (by cases q <;> rfl)
  have hmodified : Token.modified pattern ⟨.quantifier q, offset, offset + 1⟩ = !greedy := by
    rw [Token.modified_eq (Text.drop_succ_of_drop hpattern) rfl]
    cases greedy with
    | true => simpa using hrest rfl
    | false => simp
  have hreact : ReadState.react ⟨offset, .normal, level, .part p :: stack⟩ s
      ⟨.quantifier q, offset, offset + 1⟩
        (Token.modified pattern ⟨.quantifier q, offset, offset + 1⟩) =
      .ok (⟨offset, .normal, level, .part (p.wrap (q.apply greedy) s).1 :: stack⟩,
        (p.wrap (q.apply greedy) s).2) := by
    rw [hmodified, ReadState.react, Bool.not_not]
    rfl
  rw [run_of_next (Text.lt_size_of_drop hpattern) hnext hreact, Token.behind, hmodified]
  cases greedy <;> rfl

theorem run_mark (m : Mark) (h : s.Sound) (hp : s.Holds p) (hfits : m.Fits p.tree)
    (hrest : ∀ q, m = .quantifier q true → rest.head? ≠ some ('?' : CodeUnit))
    (hpattern : pattern.toList.drop offset = m.render ++ rest) :
    ∃ x, s.Makes x (m.apply p.tree) ∧
      run pattern ⟨offset, .normal, level, .part p :: stack⟩ s =
        run pattern ⟨offset + m.render.length, .normal, level, .part x.1 :: stack⟩ x.2 := by
  cases m with
  | quantifier q greedy =>
    exact run_quantifier h hp q greedy (fun hgreedy ↦ hrest q (hgreedy ▸ rfl)) hpattern
  | repetition r => exact run_repetition h hp r hfits hpattern

/-- Only an optional mark starts with a question mark. -/
theorem Mark.head?_render_append (m : Mark) (rest : List CodeUnit)
    (h : (m.render ++ rest).head? = some ('?' : CodeUnit)) :
    ∃ greedy, m = .quantifier .opt greedy := by
  cases m with
  | quantifier q greedy =>
    cases q with
    | opt => exact ⟨greedy, rfl⟩
    | star | plus => exact absurd (Option.some.inj h) (by decide)
  | repetition r => exact absurd (Option.some.inj h) (by decide)

theorem run_marks {marks : List Mark} (hmarks : marks.IsChain fun m m' ↦ m.precedes m' = true)
    (h : s.Sound) (hp : s.Holds p) (hfits : AllFit p.tree marks)
    (hrest : rest.head? ≠ some ('?' : CodeUnit))
    (hpattern : pattern.toList.drop offset = marks.flatMap Mark.render ++ rest) :
    ∃ x, s.Makes x (marks.foldl (fun e m ↦ m.apply e) p.tree) ∧
      run pattern ⟨offset, .normal, level, .part p :: stack⟩ s =
        run pattern ⟨offset + (marks.flatMap Mark.render).length, .normal, level,
          .part x.1 :: stack⟩ x.2 := by
  induction marks generalizing offset p s with
  | nil => exact ⟨(p, s), ⟨rfl, hp, .refl h⟩, rfl⟩
  | cons m marks ih =>
    rw [List.flatMap_cons, List.append_assoc] at hpattern
    have hnext : ∀ q, m = .quantifier q true →
        (marks.flatMap Mark.render ++ rest).head? ≠ some ('?' : CodeUnit) := by
      rintro q rfl
      cases marks with
      | nil => exact hrest
      | cons m' marks =>
        intro hhead
        rw [List.flatMap_cons, List.append_assoc] at hhead
        obtain ⟨greedy, rfl⟩ := m'.head?_render_append _ hhead
        exact absurd (List.isChain_cons_cons.mp hmarks).1 (by simp [Mark.precedes])
    obtain ⟨x, hx, hrun⟩ := run_mark m h hp hfits.1 hnext hpattern
    obtain ⟨y, hy, hrun'⟩ := ih hmarks.tail hx.grows.sound hx.holds (hx.tree_eq ▸ hfits.2)
      (Text.drop_add_of_drop hpattern)
    rw [hx.tree_eq] at hy
    refine ⟨y, hx.grows.makes hy, ?_⟩
    rw [hrun, hrun', List.flatMap_cons, List.length_append, Nat.add_assoc]

/-! ### Patterns -/

theorem head?_cons_ne {u v : CodeUnit} (h : u ≠ v) (rest : List CodeUnit) :
    (u :: rest).head? ≠ some v :=
  fun hhead ↦ h (Option.some.inj hhead)

theorem Atom.head?_render_append (a : Atom) (rest : List CodeUnit) :
    (a.render ++ rest).head? ≠ some ('?' : CodeUnit) := by
  cases a with
  | unit u =>
    rw [Atom.render, renderUnit]
    split
    · exact fun h ↦ absurd (Option.some.inj h) (by decide)
    · next hescapes =>
      rintro h
      obtain rfl := Option.some.inj h
      exact hescapes (by decide)
  | any | startAnchor | endAnchor | builtin | group =>
    rw [Atom.render]
    exact fun h ↦ absurd (Option.some.inj h) (by decide)

theorem Branch.head?_render_append (b : Branch) (hrest : rest.head? ≠ some ('?' : CodeUnit)) :
    (b.render ++ rest).head? ≠ some ('?' : CodeUnit) := by
  cases b with
  | nil => exact hrest
  | cons atom marks b =>
    rw [Branch.render, List.append_assoc]
    exact atom.head?_render_append _

/-- A unit is read as itself, with or without a backslash in front of it. -/
theorem next_renderUnit {u : CodeUnit}
    (hpattern : pattern.toList.drop offset = renderUnit u ++ rest) :
    Token.next pattern .normal offset =
      .ok ⟨.unit u, offset, offset + (renderUnit u).length⟩ :=
  Token.next_write hpattern

theorem next_builtinName {mode : Mode} {b : Builtin} {negated : Bool}
    (hpattern : pattern.toList.drop offset = ('\\' : CodeUnit) :: builtinName b negated :: rest) :
    Token.next pattern mode offset = .ok ⟨.builtin b negated, offset, offset + 2⟩ := by
  refine Token.next_builtin hpattern ?_ ?_
  · cases mode <;> cases b <;> cases negated <;> rfl
  · cases b <;> cases negated <;> rfl

/-- A parenthesis is read on top of anything, as long as there are levels left. -/
theorem run_openGroup (hlevel : level < maxNestingDepth)
    (hpattern : pattern.toList.drop offset = ('(' : CodeUnit) :: rest) :
    run pattern ⟨offset, .normal, level, stack⟩ s =
      run pattern ⟨offset + 1, .normal, level + 1,
        .marker (.openGroup level offset) :: stack⟩ s := by
  have hreact : ∀ modified, ReadState.react ⟨offset, .normal, level, stack⟩ s
      ⟨.openGroup, offset, offset + 1⟩ modified =
      .ok (⟨offset, .normal, level + 1, .marker (.openGroup level offset) :: stack⟩, s) := by
    intro modified
    rw [ReadState.react, ReadState.enter, if_neg (Nat.not_le.mpr hlevel)]
    rfl
  rw [run_of_next (Text.lt_size_of_drop hpattern) (Token.next_special hpattern (by decide) rfl)
    (hreact _), Token.behind_of_none rfl]

/-- The closing parenthesis puts the group in the place of its items. -/
theorem run_closeGroup {items : List Item} {opening : Nat} {e : Regex}
    (hcloses : Closes (level + 1) (.marker (.openGroup level opening) :: stack) s items e)
    (hpattern : pattern.toList.drop offset = (')' : CodeUnit) :: rest) :
    ∃ x, s.Makes x (.group opening e) ∧
      run pattern ⟨offset, .normal, level + 1, items⟩ s =
        run pattern ⟨offset + 1, .normal, level, .part x.1 :: stack⟩ x.2 := by
  obtain ⟨x, hx, -, hgroup⟩ := hcloses
  have hwrap := Sharing.makes_wrap hx.grows.sound hx.holds (.group opening) rfl
  rw [hx.tree_eq] at hwrap
  refine ⟨_, hx.grows.makes hwrap, ?_⟩
  have hreact : ∀ modified, ReadState.react ⟨offset, .normal, level + 1, items⟩ s
      ⟨.closeGroup, offset, offset + 1⟩ modified =
      .ok (⟨offset, .normal, level, .part (x.1.wrap (.group opening) x.2).1 :: stack⟩,
        (x.1.wrap (.group opening) x.2).2) := by
    intro modified
    simp only [ReadState.react, hgroup, closeGroup, if_true, Option.getD_some, bind, Except.bind,
      pure, Except.pure, Nat.add_sub_cancel]
  rw [run_of_next (Text.lt_size_of_drop hpattern) (Token.next_special hpattern (by decide) rfl)
    (hreact _), Token.behind_of_none rfl]

/-- A bar closes the branch in front of it. -/
theorem run_bar {items : List Item} {e : Regex} (hcloses : Closes level stack s items e)
    (hpattern : pattern.toList.drop offset = ('|' : CodeUnit) :: rest) :
    ∃ x, s.Makes x e ∧
      run pattern ⟨offset, .normal, level, items⟩ s =
        run pattern ⟨offset + 1, .normal, level,
          .marker (.bar offset) :: .part x.1 :: stack⟩ x.2 := by
  obtain ⟨x, hx, hbranch, -⟩ := hcloses
  refine ⟨x, hx, ?_⟩
  have hreact : ∀ modified, ReadState.react ⟨offset, .normal, level, items⟩ s
      ⟨.bar, offset, offset + 1⟩ modified =
      .ok (⟨offset, .normal, level, .marker (.bar offset) :: .part x.1 :: stack⟩, x.2) := by
    intro modified
    simp only [ReadState.react, hbranch, bind, Except.bind, pure, Except.pure]
  rw [run_of_next (Text.lt_size_of_drop hpattern) (Token.next_special hpattern (by decide) rfl)
    (hreact _), Token.behind_of_none rfl]

mutual

/-- An atom is read as one part, whatever is on the stack. -/
theorem Atom.reads (a : Atom) {offset level : Nat} (stack : List Item) {s : Sharing}
    {rest : List CodeUnit} (h : s.Sound) (hlevel : level + a.depth ≤ maxNestingDepth)
    (hfits : a.Fits offset) (hpattern : pattern.toList.drop offset = a.render ++ rest) :
    ∃ x, s.Makes x (a.tree offset) ∧
      run pattern ⟨offset, .normal, level, stack⟩ s =
        run pattern ⟨offset + a.render.length, .normal, level, .part x.1 :: stack⟩ x.2 := by
  match a with
  | .unit u =>
    rw [Atom.render] at hpattern
    obtain ⟨v, units, hunits⟩ : ∃ v units, renderUnit u ++ rest = v :: units := by
      rw [renderUnit]
      split <;> exact ⟨_, _, rfl⟩
    exact ⟨(_, s), ⟨rfl, h.holds_leaf rfl, .refl h⟩,
      run_push (Text.lt_size_of_drop (hpattern.trans hunits)) (next_renderUnit hpattern) rfl
        fun _ _ _ ↦ rfl⟩
  | .any =>
    exact ⟨(_, s), ⟨rfl, h.holds_leaf rfl, .refl h⟩,
      run_push (Text.lt_size_of_drop hpattern) (Token.next_special hpattern (by decide) rfl) rfl
        fun _ _ _ ↦ rfl⟩
  | .startAnchor =>
    exact ⟨(_, s), ⟨rfl, h.holds_leaf rfl, .refl h⟩,
      run_push (Text.lt_size_of_drop hpattern) (Token.next_special hpattern (by decide) rfl) rfl
        fun _ _ _ ↦ rfl⟩
  | .endAnchor =>
    exact ⟨(_, s), ⟨rfl, h.holds_leaf rfl, .refl h⟩,
      run_push (Text.lt_size_of_drop hpattern) (Token.next_special hpattern (by decide) rfl) rfl
        fun _ _ _ ↦ rfl⟩
  | .builtin b negated =>
    exact ⟨(_, s), ⟨rfl, h.holds_leaf rfl, .refl h⟩,
      run_push (Text.lt_size_of_drop hpattern) (next_builtinName hpattern) rfl fun _ _ _ ↦ rfl⟩
  | .group inner =>
    rw [Atom.depth] at hlevel
    rw [Atom.render, List.cons_append, List.append_assoc] at hpattern
    have hinner := Text.drop_succ_of_drop hpattern
    have hinside : level + 1 + inner.depth ≤ maxNestingDepth := by omega
    obtain ⟨items, s', hgrows, hcloses, hrun⟩ := inner.reads h hinside hfits
      (Or.inr ⟨level, offset, stack, rfl, rfl⟩) (head?_cons_ne (by decide) _) hinner
    obtain ⟨x, hx, hrun'⟩ := run_closeGroup hcloses (Text.drop_add_of_drop hinner)
    refine ⟨x, hgrows.makes hx, ?_⟩
    rw [run_openGroup (by omega) hpattern, hrun, hrun', Atom.render]
    simp [Nat.add_assoc, Nat.add_comm 1]

/-- A branch is read as the parts of its pieces. -/
theorem Branch.reads (b : Branch) {offset level : Nat} {stack : List Item} {s : Sharing}
    {rest : List CodeUnit} (h : s.Sound) (hlevel : level + b.depth ≤ maxNestingDepth)
    (hfits : b.Fits offset) (hrest : rest.head? ≠ some ('?' : CodeUnit))
    (hpattern : pattern.toList.drop offset = b.render ++ rest) :
    ∃ (parts : List Part) (s' : Sharing), s.Grows s' ∧ (∀ p ∈ parts, s'.Holds p) ∧
      parts.map Part.tree = b.trees offset ∧
      run pattern ⟨offset, .normal, level, stack⟩ s =
        run pattern ⟨offset + b.render.length, .normal, level,
          parts.reverse.map .part ++ stack⟩ s' := by
  match b with
  | .nil => exact ⟨[], s, .refl h, by simp, rfl, rfl⟩
  | .cons atom marks b =>
    rw [Branch.depth] at hlevel
    have hdepth : level + atom.depth ≤ maxNestingDepth := by omega
    have hdepth' : level + b.depth ≤ maxNestingDepth := by omega
    rw [Branch.render, List.append_assoc, List.append_assoc] at hpattern
    obtain ⟨hatom, hmarks, hlater⟩ := hfits
    have hpattern' := Text.drop_add_of_drop hpattern
    obtain ⟨x, hx, hrun⟩ := atom.reads stack h hdepth hatom hpattern
    obtain ⟨y, hy, hrun'⟩ := run_marks marks.separated hx.grows.sound hx.holds
      (hx.tree_eq ▸ hmarks) (b.head?_render_append hrest) hpattern'
    rw [hx.tree_eq] at hy
    obtain ⟨parts, s', hgrows, hholds, htrees, hrun''⟩ := b.reads hy.grows.sound hdepth' hlater
      hrest (Text.drop_add_of_drop hpattern')
    refine ⟨y.1 :: parts, s', hx.grows.trans (hy.grows.trans hgrows), fun p hp ↦ ?_, ?_, ?_⟩
    · rcases List.mem_cons.mp hp with rfl | hp
      · exact hgrows.holds _ hy.holds
      · exact hholds p hp
    · rw [List.map_cons, hy.tree_eq, htrees]
      rfl
    · rw [hrun, hrun', Branch.render, List.length_append, List.length_append, ← Nat.add_assoc,
        ← Nat.add_assoc, List.reverse_cons, List.map_append, List.append_assoc]
      exact hrun''

/-- Branches with bars between them are read as items that are closed to one part. -/
theorem Branches.reads (p : Branches) {offset level : Nat} {stack : List Item} {s : Sharing}
    {rest : List CodeUnit} (h : s.Sound) (hlevel : level + p.depth ≤ maxNestingDepth)
    (hfits : p.Fits offset) (hbase : Base level stack)
    (hrest : rest.head? ≠ some ('?' : CodeUnit))
    (hpattern : pattern.toList.drop offset = p.render ++ rest) :
    ∃ items s', s.Grows s' ∧ Closes level stack s' items (p.tree offset) ∧
      run pattern ⟨offset, .normal, level, stack⟩ s =
        run pattern ⟨offset + p.render.length, .normal, level, items⟩ s' := by
  match p with
  | .one b =>
    obtain ⟨parts, s', hgrows, hholds, htrees, hrun⟩ := b.reads h hlevel hfits hrest hpattern
    have hcloses := closes_parts hbase hgrows.sound hholds
    rw [htrees] at hcloses
    exact ⟨_, s', hgrows, hcloses, hrun⟩
  | .bar left right =>
    rw [Branches.depth] at hlevel
    have hdepth : level + left.depth ≤ maxNestingDepth := by omega
    have hdepth' : level + right.depth ≤ maxNestingDepth := by omega
    rw [Branches.render, List.append_assoc, List.cons_append] at hpattern
    have hbar := Text.drop_add_of_drop hpattern
    obtain ⟨items, s₁, hgrows₁, hcloses, hrun⟩ := left.reads h hdepth hfits.1 hbase
      (head?_cons_ne (by decide) _) hpattern
    obtain ⟨x, hx, hrun'⟩ := run_bar hcloses hbar
    obtain ⟨parts, s₂, hgrows₂, hholds, htrees, hrun''⟩ := right.reads hx.grows.sound hdepth'
      hfits.2 hrest (Text.drop_succ_of_drop hbar)
    have hcloses' := closes_bar level stack hgrows₂.sound hholds (hgrows₂.holds _ hx.holds)
      (offset + left.render.length)
    rw [htrees, hx.tree_eq] at hcloses'
    refine ⟨_, s₂, hgrows₁.trans (hx.grows.trans hgrows₂), hcloses', ?_⟩
    rw [hrun, hrun', hrun'', Branches.render]
    simp [Nat.add_assoc, Nat.add_comm 1]

end

/-- The text of a pattern is read as its tree, if the pattern is within the limits. -/
theorem parse_render (p : Branches) {maxLength : Int} (hlength : p.render.length ≤ maxLength)
    (hdepth : p.depth ≤ maxNestingDepth) (hfits : p.Fits 0)
    (hsize : (p.tree 0).nodeCount ≤ maxExpandedSize) :
    Regex.parse p.render.toArray maxLength = .ok (p.tree 0) := by
  have hpattern : p.render.toArray.toList.drop 0 = p.render ++ [] := by simp
  have hlevel : 0 + p.depth ≤ maxNestingDepth := by omega
  obtain ⟨items, s, hgrows, ⟨x, hx, hclose, -⟩, hrun⟩ :=
    p.reads Sharing.sound_empty hlevel hfits (Or.inl rfl) (by simp) hpattern
  have hend : run p.render.toArray ⟨0 + p.render.length, .normal, 0, items⟩ s =
      .ok (⟨0 + p.render.length, .normal, 0, items⟩, s) := ReadState.run_of_size_le (by simp)
  rw [hend] at hrun
  obtain ⟨hmeasure, -⟩ := Sharing.measure_spec hx.grows.sound hx.holds
  rw [hx.tree_eq] at hmeasure
  have hlong : ¬ maxLength < p.render.toArray.size := by simpa using hlength
  have hlarge : ¬ maxExpandedSize < (p.tree 0).nodeCount := Nat.not_lt.mpr hsize
  have hread : Regex.read p.render.toArray maxLength = .ok (p.tree 0) := by
    simp only [Regex.read, if_neg hlong, bind, Except.bind]
    rw [hrun]
    simp only [ReadState.result, hclose, bind, Except.bind, pure, Except.pure]
    simp [Item.marker?, hmeasure, hlarge, hx.tree_eq]
  rw [Regex.parse, hread]

/-- The pattern `a(b|\**?){2,3}|`, with an empty branch at its end. -/
def sample : Branches :=
  let star : Marks := ⟨[.quantifier .star false], .singleton _⟩
  let twice : Marks := ⟨[.repetition (.between 2 3 (by decide) (by decide))], .singleton _⟩
  let inner : Branches :=
    .bar (.one (.cons (.unit 'b') .none .nil)) (.cons (.unit '*') star .nil)
  .bar (.one (.cons (.unit 'a') .none (.cons (.group inner) twice .nil))) .nil

/-- The tree of the group in the sample. -/
def sampleGroup : Regex :=
  .group 1 (.alt (.literal (.unit 'b')) (.star (.literal (.unit '*')) false))

theorem parse_sample :
    (sample.render.length ≤ (100000 : Int) ∧ sample.depth ≤ maxNestingDepth ∧ sample.Fits 0 ∧
      (sample.tree 0).nodeCount ≤ maxExpandedSize) ∧
    Regex.parse #['a', '(', 'b', '|', '\\', '*', '*', '?', ')', '{', '2', ',', '3', '}', '|']
        100000 =
      .ok (.alt (.cat (.literal (.unit 'a'))
        (.cat (.cat sampleGroup sampleGroup) (.opt sampleGroup false))) .empty) := by
  have hfits : sample.Fits 0 := by
    simp only [sample, Branches.Fits, Branch.Fits, Atom.Fits, AllFit, Mark.Fits, Marks.none,
      and_true, true_and]
    decide
  have hlimits : sample.render.length ≤ (100000 : Int) ∧ sample.depth ≤ maxNestingDepth ∧
      (sample.tree 0).nodeCount ≤ maxExpandedSize := by decide
  exact ⟨⟨hlimits.1, hlimits.2.1, hfits, hlimits.2.2⟩,
    parse_render sample hlimits.1 hlimits.2.1 hfits hlimits.2.2⟩

end Written

end ExtendedRegex
