import ExtendedRegex.Proofs.BracketReading

/-!
What bracket expressions stand for, from their text to the attempts of a program. Without nesting,
the node that is read consumes the union of the items, or everything else. With nesting, each inner
expression adds its own set, except where brackets around a hyphen are misread.
-/

set_option autoImplicit false
set_option relaxedAutoImplicit false

namespace ExtendedRegex

namespace Written

/-! ### Without nesting -/

variable {items : List SetItem}

theorem SetItem.exists_has (i : SetItem) : ∃ u, i.has u = true := by
  cases i with
  | unit u => exact ⟨u, decide_eq_true rfl⟩
  | range a b ha hb =>
    refine ⟨a, decide_eq_true ?_⟩
    exact (UInt16.le_total a b).imp (⟨UInt16.le_refl a, ·⟩) (⟨·, UInt16.le_refl a⟩)
  | builtin b negated => exact b.exists_has negated

theorem anyHas_map_item (u : CodeUnit) : anyHas u (items.map .item) = items.any (·.has u) := by
  rw [anyHas_eq_any, List.any_map]
  rfl

theorem renderAll_map_item : renderAll (items.map .item) = items.flatMap SetItem.render := by
  rw [renderAll_eq_flatMap, List.flatMap_map]
  rfl

theorem depthOf_map_item : depthOf (items.map .item) = 0 := by
  induction items with
  | nil => rfl
  | cons i items ih => rw [List.map_cons, depthOf, ih]; rfl

theorem everyIn_map_item (P : Bool → List Member → Prop) : EveryIn P (items.map .item) := by
  induction items with
  | nil => trivial
  | cons i items ih => exact ⟨trivial, ih⟩

/-- Only brackets around a hyphen are misread, not the hyphen at the end. -/
theorem not_misread {members : List Member} (h : ∀ m ∈ members.dropLast, ¬ m.IsUnit '-') :
    ¬ Misread members := by
  rintro ⟨before, m, next, after, rfl, hm, -⟩
  refine h m ?_ hm
  rw [List.dropLast_append_of_ne_nil (by simp)]
  simp

theorem proper_map_item {negated : Bool} (hitems : items ≠ [])
    (hhyphen : .unit '-' ∉ items.dropLast)
    (hcaret : negated = false → (items.flatMap SetItem.render).head? ≠ some ('^' : CodeUnit)) :
    Proper negated (items.map .item) where
  ne_nil := by simpa using hitems
  inhabited := by
    rintro m hm
    obtain ⟨i, -, rfl⟩ := List.mem_map.mp hm
    exact i.exists_has
  hyphen := by
    rw [← List.map_dropLast, List.mem_map]
    rintro ⟨i, hi, heq⟩
    exact hhyphen (Member.item.inj heq ▸ hi)
  caret := renderAll_map_item ▸ hcaret

theorem not_misread_map_item (hhyphen : .unit '-' ∉ items.dropLast) :
    ¬ Misread (items.map .item) := by
  refine not_misread fun m hm hunit ↦ ?_
  rw [← List.map_dropLast] at hm
  obtain ⟨i, hi, rfl⟩ := List.mem_map.mp hm
  cases i with
  | unit u =>
    obtain rfl : u = '-' := hunit
    exact hhyphen hi
  | range | builtin => exact hunit

/-- A bracket expression without nesting is read as one node. An attempt consumes a unit exactly if
the unit is in one of the items and the expression is not negated, or in none and it is; the node is
a literal if there is just one unit to consume and no negation. -/
theorem flatBracket_consumes (negated : Bool) (items : List SetItem) (hitems : items ≠ [])
    (hhyphen : .unit '-' ∉ items.dropLast)
    (hcaret : negated = false → (items.flatMap SetItem.render).head? ≠ some ('^' : CodeUnit)) :
    ∃ tree,
      (∀ maxLength : Int,
        Regex.parse (bracketText negated (items.flatMap SetItem.render)).toArray maxLength =
            .ok tree ↔ (bracketText negated (items.flatMap SetItem.render)).length ≤ maxLength) ∧
      tree.IsClass (fun u ↦ items.any (·.has u) != negated) ∧
      (∀ (subject : Text) (anchor : Int) (position : Nat), position ≤ subject.size →
        tree.compile.searchAt subject position ⟨some anchor, none⟩ =
          .ok (if subject[position]?.any fun u ↦ items.any (·.has u) != negated then
            some ⟨some position, some (position + 1), #[some ⟨position, (position + 1 : Nat)⟩]⟩
          else none)) ∧
      ((∃ l, tree = .literal l) ↔ negated = false ∧ ∃! u, items.any (·.has u) = true) := by
  have hproper := proper_map_item hitems hhyphen hcaret
  have hdepth : (Member.nested negated (items.map .item)).depth ≤ maxNestingDepth := by
    rw [Member.depth, depthOf_map_item]
    decide
  have hparse := parse_bracket hdepth ⟨hproper, everyIn_map_item _⟩
    ⟨not_misread_map_item hhyphen, everyIn_map_item _⟩
  have hdenotes : (setOf (items.map .item)).Denotes fun u ↦ items.any (·.has u) :=
    (denotes_setOf _).congr anyHas_map_item
  have hclass := hdenotes.isClass_bracketTree negated
  rw [Member.render, renderAll_map_item] at hparse
  refine ⟨_, hparse, hclass, fun subject anchor _ h ↦ hclass.searchAt anchor h, ?_⟩
  exact hdenotes.bracketTree_eq_literal_iff negated

/-- The items of `[^ax-z\d-]`. -/
def sampleItems : List SetItem :=
  [.unit 'a', .range 'x' 'z' (by decide) (by decide), .builtin .digit false, .unit '-']

theorem flatBracket_sampleItems :
    ∃ tree, Regex.parse #['[', '^', 'a', 'x', '-', 'z', '\\', 'd', '-', ']'] 100000 = .ok tree ∧
      tree.compile.searchAt #['b', '-'] (0 : Nat) ⟨some 0, none⟩ =
        .ok (some ⟨some 0, some 1, #[some ⟨0, 1⟩]⟩) ∧
      tree.compile.searchAt #['b', '-'] (1 : Nat) ⟨some 0, none⟩ = .ok none := by
  have hhyphen : .unit '-' ∉ sampleItems.dropLast := by
    have hne : ('-' : CodeUnit) ≠ 'a' := by decide
    simpa [sampleItems] using hne
  obtain ⟨tree, hparse, -, hsearch, -⟩ :=
    flatBracket_consumes true sampleItems (by simp [sampleItems]) hhyphen (by simp)
  exact ⟨tree, (hparse 100000).mpr (by decide), hsearch _ 0 0 (by decide),
    hsearch _ 0 1 (by decide)⟩

/-! ### With nesting -/

/-- However bracket expressions are nested, one is read as one node, which consumes the units that
its members stand for, or all others if it is negated. Brackets around a hyphen must stand where
they cannot be misread. -/
theorem nestedBracket_consumes (negated : Bool) (members : List Member)
    (hdepth : (Member.nested negated members).depth ≤ maxNestingDepth)
    (hproper : (Member.nested negated members).Every Proper)
    (hclear : (Member.nested negated members).Every fun _ members ↦ ¬ Misread members) :
    ∃ tree,
      (∀ maxLength : Int,
        Regex.parse (Member.nested negated members).render.toArray maxLength = .ok tree ↔
          (Member.nested negated members).render.length ≤ maxLength) ∧
      tree.IsClass (fun u ↦ members.any (·.has u) != negated) ∧
      ∀ (subject : Text) (anchor : Int) (position : Nat), position ≤ subject.size →
        tree.compile.searchAt subject position ⟨some anchor, none⟩ =
          .ok (if subject[position]?.any fun u ↦ members.any (·.has u) != negated then
            some ⟨some position, some (position + 1), #[some ⟨position, (position + 1 : Nat)⟩]⟩
          else none) := by
  have hdenotes : (setOf members).Denotes fun u ↦ members.any (·.has u) :=
    (denotes_setOf _).congr fun u ↦ anyHas_eq_any u members
  have hclass := hdenotes.isClass_bracketTree negated
  exact ⟨_, parse_bracket hdepth hproper hclear, hclass,
    fun subject anchor _ h ↦ hclass.searchAt anchor h⟩

/-- The members of `[a[^[b-d]\D]-]`. -/
def sampleMembers : List Member :=
  [.item (.unit 'a'),
    .nested true [.nested false [.item (.range 'b' 'd' (by decide) (by decide))],
      .item (.builtin .digit true)],
    .item (.unit '-')]

theorem nestedBracket_sampleMembers :
    ∃ tree, Regex.parse
        #['[', 'a', '[', '^', '[', 'b', '-', 'd', ']', '\\', 'D', ']', '-', ']'] 100000 = .ok tree ∧
      tree.compile.searchAt #['c', '5'] (0 : Nat) ⟨some 0, none⟩ = .ok none ∧
      tree.compile.searchAt #['c', '5'] (1 : Nat) ⟨some 0, none⟩ =
        .ok (some ⟨some 1, some 2, #[some ⟨1, 2⟩]⟩) := by
  have hletter : ('-' : CodeUnit) ≠ 'a' := by decide
  have hproper : (Member.nested false sampleMembers).Every Proper := by
    refine ⟨⟨by simp [sampleMembers], ?_, ?_, fun _ ↦ by decide⟩, trivial,
      ⟨⟨by simp, ?_, by simp, by simp⟩,
        ⟨⟨by simp, ?_, by simp, fun _ ↦ by decide⟩, trivial, trivial⟩, trivial, trivial⟩,
      trivial, trivial⟩
    · simp only [sampleMembers, List.forall_mem_cons]
      exact ⟨⟨'a', by decide⟩, ⟨'5', by decide⟩, ⟨'-', by decide⟩, by simp⟩
    · simpa [sampleMembers] using hletter
    · simp only [List.forall_mem_cons]
      exact ⟨⟨'b', by decide⟩, ⟨'-', by decide⟩, by simp⟩
    · simp only [List.forall_mem_cons]
      exact ⟨⟨'b', by decide⟩, by simp⟩
  have hclear : (Member.nested false sampleMembers).Every fun _ members ↦ ¬ Misread members := by
    refine ⟨not_misread ?_, trivial, ⟨not_misread ?_,
      ⟨not_misread (by simp), trivial, trivial⟩, trivial, trivial⟩, trivial, trivial⟩
    · simpa [sampleMembers, Member.IsUnit] using hletter.symm
    · simp only [List.dropLast_cons_cons, List.dropLast_singleton, List.forall_mem_cons]
      exact ⟨fun h ↦ absurd (h 'b') (by decide), by simp⟩
  obtain ⟨tree, hparse, -, hsearch⟩ :=
    nestedBracket_consumes false sampleMembers (by decide) hproper hclear
  exact ⟨tree, (hparse 100000).mpr (by decide), hsearch _ 0 0 (by decide),
    hsearch _ 0 1 (by decide)⟩

/-! ### What is not read -/

/-- A letter in so many brackets. -/
def stacked : Nat → Member
  | 0 => .item (.unit 'a')
  | n + 1 => .nested false [stacked n]

theorem render_stacked_succ (n : Nat) : (stacked (n + 1)).render =
    ('[' : CodeUnit) :: ((stacked n).render ++ [(']' : CodeUnit)]) := by
  simp [stacked, Member.render, bracketText, renderAll]

theorem length_render_stacked (n : Nat) : (stacked n).render.length = 2 * n + 1 := by
  induction n with
  | zero => rfl
  | succ n ih =>
    rw [render_stacked_succ, List.length_cons, List.length_append, ih, List.length_singleton]
    omega

theorem head?_render_stacked (n : Nat) (rest : List CodeUnit) :
    ((stacked n).render ++ rest).head? ≠ some ('^' : CodeUnit) := by
  cases n with
  | zero => exact head?_cons_ne (by decide) rest
  | succ n =>
    rw [render_stacked_succ]
    exact head?_cons_ne (by decide) _

theorem proper_stacked (n : Nat) : (stacked n).Every Proper := by
  have hhas : ∀ n, (stacked n).has 'a' = true := by
    intro n
    induction n with
    | zero => rfl
    | succ n ih => simp [stacked, Member.has, anyHas, ih]
  induction n with
  | zero => trivial
  | succ n ih =>
    refine ⟨⟨by simp, ?_, by simp, fun _ ↦ ?_⟩, ih, trivial⟩
    · exact fun m hm ↦ ⟨'a', List.mem_singleton.mp hm ▸ hhas n⟩
    · simpa [renderAll] using head?_render_stacked n []

/-- Where the levels run out, the next opening bracket is refused. -/
theorem run_stacked {pattern : Text} {offset level : Nat} {mode : Mode} {stack : List Item}
    {s : Sharing} {rest : List CodeUnit} {n : Nat}
    (hmode : mode.special.lookup ('[' : CodeUnit) = some .openBracket)
    (hlevel : level ≤ maxNestingDepth) (hdeep : maxNestingDepth < level + n)
    (h : pattern.toList.drop offset = (stacked n).render ++ rest) :
    ReadState.run pattern ⟨offset, mode, level, stack⟩ s =
      .error ⟨.nestingTooDeep, offset + (maxNestingDepth - level)⟩ := by
  induction n generalizing offset level mode stack rest with
  | zero => omega
  | succ n ih =>
    rw [render_stacked_succ, List.cons_append, List.append_assoc] at h
    rcases Nat.lt_or_eq_of_le hlevel with hlt | rfl
    · have hoffset :
          offset + 1 + (maxNestingDepth - (level + 1)) = offset + (maxNestingDepth - level) := by
        omega
      rw [run_openBracket false hmode hlt (fun _ ↦ head?_render_stacked n _) h, ← hoffset]
      exact ih rfl hlt (by omega) (Text.drop_succ_of_drop h)
    · rw [ReadState.run_bind_of_next (Text.lt_size_of_drop h)
        (Token.next_special h (by decide) hmode)]
      simp [ReadState.react, ReadState.enter, Marker.offset, bind, Except.bind]

/-- The members of `[a[-]z]`, where the inner brackets are misread. -/
def misreadMembers : List Member :=
  [.item (.unit 'a'), .nested false [.item (.unit '-')], .item (.unit 'z')]

/-- The set that is gathered there. -/
def misreadSet : CodeSet := CodeSet.empty.insert (.between 97 122)

theorem proper_misreadMembers : (Member.nested false misreadMembers).Every Proper := by
  have hletter : ('-' : CodeUnit) ≠ 'a' := by decide
  refine ⟨⟨by simp [misreadMembers], ?_, ?_, fun _ ↦ by decide⟩, trivial,
    ⟨⟨by simp, ?_, by simp, fun _ ↦ by decide⟩, trivial, trivial⟩, trivial, trivial⟩
  · simp only [misreadMembers, List.forall_mem_cons]
    exact ⟨⟨'a', by decide⟩, ⟨'-', by decide⟩, ⟨'z', by decide⟩, by simp⟩
  · simpa [misreadMembers] using hletter
  · simp only [List.forall_mem_cons]
    exact ⟨⟨'-', by decide⟩, by simp⟩

theorem run_misreadMembers :
    ReadState.run (Member.nested false misreadMembers).render.toArray {} {} =
      .ok (⟨7, .normal, 0, [.part (.leaf (.oneOf misreadSet))]⟩, {}) := by
  have hhyphen : (Member.nested false [.item (.unit '-')]).entry = .unit '-' :=
    Member.entry_eq_unit_iff.mpr fun v ↦ by simp [anyHas, Member.has, SetItem.has]
  have hclear : EveryIn (fun _ members ↦ ¬ Misread members) misreadMembers :=
    ⟨trivial, ⟨not_misread (by simp), trivial, trivial⟩, trivial, trivial⟩
  have hclose : closeBracket false 1 6
      ((misreadMembers.map Member.entry).reverse.flatMap Entry.items ++
        [.marker (.openBracket 0 0)]) = .ok [.part (.leaf (.oneOf misreadSet))] := by
    have hitems : (misreadMembers.map Member.entry).reverse.flatMap Entry.items =
        [unitItem 'z', unitItem '-', unitItem 'a'] := by
      simp only [misreadMembers, List.map_cons, hhyphen]
      rfl
    have hgather : gatherSet 1 6 .empty
        [.part ⟨.literal (.unit 'z'), 0⟩, unitItem '-', unitItem 'a',
          .marker (.openBracket 0 0)] = .ok (misreadSet, []) := by
      have hnothing : Clear [] := trivial
      have hempty : gatherSet 1 6 misreadSet (inBrackets 0 0 [] []) = .ok (misreadSet, []) :=
        gatherSet_inBrackets hnothing _
      rw [gatherSet]
      exact hempty
    rw [hitems, closeBracket]
    exact congrArg (· >>= _) hgather
  have hreact : ∀ modified, ReadState.react ⟨6, .bracket false .normal, 1,
      (misreadMembers.map Member.entry).reverse.flatMap Entry.items ++
        [.marker (.openBracket 0 0)]⟩ {} ⟨.closeBracket, 6, 7⟩ modified =
      .ok (⟨6, .normal, 0, [.part (.leaf (.oneOf misreadSet))]⟩, {}) := by
    intro modified
    simp only [ReadState.react, hclose, bind, Except.bind, pure, Except.pure, Nat.sub_self]
  have hopen : ReadState.run (Member.nested false misreadMembers).render.toArray {} {} =
      ReadState.run (Member.nested false misreadMembers).render.toArray
        ⟨1, .bracket false .normal, 1, [.marker (.openBracket 0 0)]⟩ {} :=
    ReadState.run_of_step (by decide) rfl
  have hpattern : (Member.nested false misreadMembers).render.toArray.toList.drop 1 =
      renderAll misreadMembers ++ [(']' : CodeUnit)] := rfl
  have hmembers : ReadState.run (Member.nested false misreadMembers).render.toArray
      ⟨1, .bracket false .normal, 1, [.marker (.openBracket 0 0)]⟩ {} = _ :=
    readsAll misreadMembers _ (by decide) proper_misreadMembers.2 hclear hpattern
  rw [hopen, hmembers]
  refine (ReadState.run_of_next (by decide) rfl (hreact _)).trans ?_
  exact ReadState.run_of_size_le (by decide)

theorem run_emptyBrackets : ReadState.run (Member.nested true []).render.toArray {} {} =
    .ok (⟨3, .normal, 0, []⟩, {}) := by
  have hopen : ReadState.run (Member.nested true []).render.toArray {} {} =
      ReadState.run (Member.nested true []).render.toArray
        ⟨2, .bracket true .normal, 1, [.marker (.openBracket 0 0)]⟩ {} :=
    ReadState.run_of_step (by decide) rfl
  have hreact : ∀ modified, ReadState.react
      ⟨2, .bracket true .normal, 1, [.marker (.openBracket 0 0)]⟩ {} ⟨.closeBracket, 2, 3⟩
        modified = .ok (⟨2, .normal, 0, []⟩, {}) := by
    intro modified
    simp [ReadState.react, closeBracket, gatherSet, CodeSet.isEmpty, CodeSet.empty, bind,
      Except.bind, pure, Except.pure]
  rw [hopen]
  refine (ReadState.run_of_next (by decide) rfl (hreact _)).trans ?_
  exact ReadState.run_of_size_le (by decide)

/-- A bracket expression that is nested too deep is refused; one with nothing in it is left out, also
if it is negated; and where a hyphen in brackets stands between two letters, all letters between them
are consumed but not the hyphen. -/
theorem nestedBracket_lost :
    ((stacked 1001).Every Proper ∧
      Regex.parse (stacked 1001).render.toArray 100000 =
        .error ⟨⟨.nestingTooDeep, 1000⟩, (stacked 1001).render.toArray⟩) ∧
    (Regex.parse (Member.nested true []).render.toArray 100000 = .ok .empty ∧
      ∀ u, (Member.nested true []).has u = true) ∧
    ((Member.nested false misreadMembers).Every Proper ∧
      Regex.parse (Member.nested false misreadMembers).render.toArray 100000 =
        .ok (.oneOf misreadSet) ∧
      (Member.nested false misreadMembers).has '-' = true ∧
      (Regex.oneOf misreadSet).consumes '-' = false) := by
  have hlength : ((stacked 1001).render.toArray.size : Int) ≤ 100000 := by
    rw [List.size_toArray, length_render_stacked]
    decide
  have hpattern : (stacked 1001).render.toArray.toList.drop 0 =
      (stacked 1001).render ++ [] := by simp
  have hdeep : ReadState.run (stacked 1001).render.toArray {} {} =
      .error ⟨.nestingTooDeep, 1000⟩ :=
    run_stacked rfl (by decide) (by decide) hpattern
  have hempty : ReadState.result ⟨3, .normal, 0, []⟩ {} = .ok .empty :=
    ReadState.result_part Sharing.sound_empty (Sharing.sound_empty.holds_leaf (e := .empty) rfl)
      (by decide) 3 .normal 0
  have hmisread := ReadState.result_part Sharing.sound_empty
    (Sharing.sound_empty.holds_leaf (e := .oneOf misreadSet) rfl) (by decide)
  exact ⟨⟨proper_stacked _, parse_of_run_error hdeep hlength⟩,
    ⟨(parse_iff_of_run run_emptyBrackets hempty 100000).mpr (by decide), fun _ ↦ rfl⟩,
    proper_misreadMembers,
    (parse_iff_of_run run_misreadMembers (hmisread _ _ _) 100000).mpr (by decide), by decide,
    by decide⟩

end Written

end ExtendedRegex
