import ExtendedRegex.Proofs.Brackets
import ExtendedRegex.Proofs.FixedLength
import ExtendedRegex.Proofs.RoundTrip

/-!
Reading bracket expressions. The items between two brackets are gathered from the stack, the last
one first, and a hyphen on the stack is taken for the hyphen of a range wherever it could be one.
Unless that misreads a nested bracket expression, one node is left that consumes the units the
whole expression stands for.
-/

set_option autoImplicit false
set_option relaxedAutoImplicit false

namespace ExtendedRegex

/-! ### What the node consumes -/

/-- One node that consumes the units with a property. -/
structure Regex.IsClass (e : Regex) (has : CodeUnit → Bool) : Prop where
  node : (∃ u, e = .literal (.unit u)) ∨ ∃ set, e = .oneOf set
  consumes : ∀ u, e.consumes u = has u

namespace Regex.IsClass

variable {e : Regex} {has : CodeUnit → Bool}

theorem operands (h : e.IsClass has) : e.operands = [] := by
  obtain ⟨u, rfl⟩ | ⟨set, rfl⟩ := h.node <;> rfl

theorem nodeCount (h : e.IsClass has) : e.nodeCount = 1 := by
  obtain ⟨u, rfl⟩ | ⟨set, rfl⟩ := h.node <;> rfl

theorem fixedLength (h : e.IsClass has) (subject : Text) (anchor : Int) :
    e.FixedLength subject anchor (fun p ↦ subject[p]?.any has = true) 1 where
  labels := labels_eq_nil (openings_eq_nil h.operands)
  spans p q := by
    obtain rfl : e.consumes = has := funext h.consumes
    obtain ⟨u, rfl⟩ | ⟨set, rfl⟩ := h.node <;> exact Iff.rfl

/-- An attempt consumes the unit at its position, if it is one of those. -/
theorem searchAt (h : e.IsClass has) {subject : Text} (anchor : Int) {position : Nat}
    (hposition : position ≤ subject.size) :
    e.compile.searchAt subject position ⟨some anchor, none⟩ =
      .ok (if subject[position]?.any has then some (FixedLength.found 1 position) else none) :=
  (h.fixedLength subject anchor).searchAt hposition

end Regex.IsClass

namespace CodeSet.Denotes

variable {set : CodeSet} {f : CodeUnit → Bool}

theorem isClass (h : set.Denotes f) : (Regex.oneOf set).IsClass f where
  node := Or.inr ⟨set, rfl⟩
  consumes u := by rw [Regex.consumes, Bool.eq_iff_iff, decide_eq_true_iff, h.code_mem_iff]

theorem isClass_bracketTree (h : set.Denotes f) (negated : Bool) :
    (bracketTree negated set).IsClass fun u ↦ f u != negated := by
  unfold bracketTree
  split
  · next code hsingle =>
    obtain ⟨u, rfl, hf⟩ := h.single?_eq_some_iff.mp hsingle
    rw [CodeUnit.toUInt16_code]
    exact ⟨Or.inl ⟨u, rfl⟩, fun v ↦ by simp [Regex.consumes, hf]⟩
  · simpa using h.isClass
  · simpa using h.complement.isClass

/-- The node is a literal if the set holds one unit and is not negated. -/
theorem bracketTree_eq_literal_iff (h : set.Denotes f) (negated : Bool) :
    (∃ l, bracketTree negated set = .literal l) ↔ negated = false ∧ ∃! u, f u = true := by
  have hunique : ∀ u, (∀ v, f v = decide (v = u)) ↔ f u = true ∧ ∀ v, f v = true → v = u := by
    intro u
    constructor
    · exact fun hf ↦ ⟨by simp [hf], fun v hv ↦ by simpa [hf] using hv⟩
    · rintro ⟨hu, hf⟩ v
      rw [Bool.eq_iff_iff, decide_eq_true_iff]
      exact ⟨hf v, (· ▸ hu)⟩
  unfold bracketTree
  split
  · next code hsingle =>
    obtain ⟨u, -, hf⟩ := h.single?_eq_some_iff.mp hsingle
    exact ⟨fun _ ↦ ⟨rfl, u, (hunique u).mp hf⟩, fun _ ↦ ⟨_, rfl⟩⟩
  · next hsingle =>
    refine ⟨fun ⟨l, hl⟩ ↦ Regex.noConfusion hl, fun ⟨_, u, hu⟩ ↦ ?_⟩
    rw [h.single?_eq_some_iff.mpr ⟨u, rfl, (hunique u).mpr hu⟩] at hsingle
    cases hsingle
  · simp

end CodeSet.Denotes

namespace Written

open ReadState (run run_of_next run_bind_of_next run_push)

/-! ### Gathering entries -/

/-- The items of an entry, the top one first. -/
def Entry.items : Entry → List Item
  | unit u => [unitItem u]
  | range a b _ => [unitItem b, unitItem '-', unitItem a]
  | set s => [.part (.leaf (.oneOf s))]

/-- An entry on top of others that is taken for something else: there is only a hyphen below it and
it is no range, or it is a unit, and a hyphen stands between it and a unit or a range. -/
def Entry.Confused (e : Entry) (below : List Entry) : Prop :=
  below = [.unit '-'] ∧ (∀ a b hb, e ≠ .range a b hb) ∨
    ∃ u next rest, e = .unit u ∧ below = .unit '-' :: next :: rest ∧ ∀ s, next ≠ .set s

/-- Entries none of which is taken for something else. -/
def Clear : List Entry → Prop
  | [] => True
  | e :: below => ¬ e.Confused below ∧ Clear below

section Gathering

variable {level closing opening : Nat} {entries : List Entry} {stack : List Item}

/-- The stack with entries on top of an opening bracket. -/
def inBrackets (level opening : Nat) (entries : List Entry) (stack : List Item) : List Item :=
  entries.flatMap Entry.items ++ .marker (.openBracket level opening) :: stack

theorem leadingHyphen?_of_unit? {item : Item} {below : List Item} (h : item.unit? ≠ some '-') :
    leadingHyphen? level (item :: below) = none := by
  unfold leadingHyphen?
  split
  · next heq =>
    obtain ⟨rfl, -⟩ := List.cons.inj heq
    rw [if_neg fun hitem ↦ h hitem.1]
  · rfl

theorem rangeStart?_of_unit? {item : Item} {below : List Item} (h : item.unit? ≠ some '-') :
    rangeStart? (item :: below) = none := by
  unfold rangeStart?
  split
  · next heq =>
    obtain ⟨rfl, -⟩ := List.cons.inj heq
    rw [if_neg h]
  · rfl

theorem unit?_unitItem_ne {u : CodeUnit} (h : u ≠ '-') : (unitItem u).unit? ≠ some '-' :=
  fun hu ↦ h (Option.some.inj hu)

theorem leadingHyphen?_inBrackets (h : entries ≠ [.unit '-']) :
    leadingHyphen? (level + 1) (inBrackets level opening entries stack) = none := by
  match entries with
  | [] => exact leadingHyphen?_of_unit? (by simp [Item.unit?])
  | [.unit u] => exact leadingHyphen?_of_unit? (unit?_unitItem_ne fun hu ↦ h (hu ▸ rfl))
  | .unit _ :: .unit _ :: _ | .unit _ :: .range _ _ _ :: _ | .unit _ :: .set _ :: _ => rfl
  | .range _ _ _ :: _ => rfl
  | .set s :: _ => exact leadingHyphen?_of_unit? (by simp [Item.unit?, Part.leaf])

theorem rangeStart?_inBrackets {u : CodeUnit} (h : ¬ Entry.Confused (.unit u) entries) :
    rangeStart? (inBrackets level opening entries stack) = none := by
  match entries with
  | [] => exact rangeStart?_of_unit? (by simp [Item.unit?])
  | [.unit v] =>
    exact rangeStart?_of_unit? (unit?_unitItem_ne fun hv ↦ h (Or.inl ⟨hv ▸ rfl, by simp⟩))
  | .unit v :: .unit w :: rest =>
    exact rangeStart?_of_unit? (unit?_unitItem_ne fun hv ↦
      h (Or.inr ⟨u, .unit w, rest, rfl, by rw [hv], by simp⟩))
  | .unit v :: .range a b hb :: rest =>
    exact rangeStart?_of_unit? (unit?_unitItem_ne fun hv ↦
      h (Or.inr ⟨u, .range a b hb, rest, rfl, by rw [hv], by simp⟩))
  | .unit _ :: .set _ :: _ => exact ite_self none
  | .range _ b hb :: _ => exact rangeStart?_of_unit? (unit?_unitItem_ne hb)
  | .set s :: _ => exact rangeStart?_of_unit? (by simp [Item.unit?, Part.leaf])

/-- What stands between brackets is gathered entry by entry. -/
theorem gatherSet_inBrackets (h : Clear entries) (s : CodeSet) :
    gatherSet (level + 1) closing s (inBrackets level opening entries stack) =
      .ok (entries.foldl Entry.addTo s, stack) := by
  induction entries generalizing s with
  | nil => simp [inBrackets, gatherSet]
  | cons e below ih =>
    obtain ⟨he, hbelow⟩ := h
    cases e with
    | unit u =>
      have hleading :
          leadingHyphen? (level + 1) (inBrackets level opening below stack) = none :=
        leadingHyphen?_inBrackets fun hbelow ↦ he (Or.inl ⟨hbelow, by simp⟩)
      have hitems : inBrackets level opening (.unit u :: below) stack =
        .part ⟨.literal (.unit u), 0⟩ :: inBrackets level opening below stack := rfl
      rw [hitems, gatherSet, hleading, rangeStart?_inBrackets he]
      exact ih hbelow _
    | range a b hb =>
      have hitems : inBrackets level opening (.range a b hb :: below) stack =
        .part ⟨.literal (.unit b), 0⟩ :: unitItem '-' :: unitItem a ::
          inBrackets level opening below stack := rfl
      rw [hitems, gatherSet]
      exact ih hbelow _
    | set t =>
      have hleading :
          leadingHyphen? (level + 1) (inBrackets level opening below stack) = none :=
        leadingHyphen?_inBrackets fun hbelow ↦ he (Or.inl ⟨hbelow, by simp⟩)
      have hitems : inBrackets level opening (.set t :: below) stack =
        .part ⟨.oneOf t, 0⟩ :: inBrackets level opening below stack := rfl
      rw [hitems, gatherSet, hleading]
      exact ih hbelow _

end Gathering

theorem clear_of_forall {entries : List Entry}
    (h : ∀ above e below, entries = above ++ e :: below → ¬ e.Confused below) : Clear entries := by
  induction entries with
  | nil => trivial
  | cons e below ih =>
    exact ⟨h [] e below rfl, ih fun above e' below' heq ↦ h (e :: above) e' below' (by simp [heq])⟩

/-- Members that are not misread leave entries that are gathered as they are. -/
theorem clear_of_not_misread {members : List Member} (h : ¬ Misread members) :
    Clear (members.map Member.entry).reverse := by
  refine clear_of_forall fun above e below heq hconfused ↦ h ?_
  rw [← List.reverse_inj, List.reverse_reverse, List.reverse_append, List.reverse_cons,
    List.append_assoc] at heq
  obtain ⟨before, rest, rfl, hbefore, hrest⟩ := List.map_eq_append_iff.mp heq
  obtain ⟨next, after, rfl, rfl, -⟩ := List.map_eq_cons_iff.mp hrest
  rcases hconfused with ⟨rfl, hnext⟩ | ⟨u, last, rest, hu, rfl, hlast⟩
  · obtain ⟨m, rfl, hm⟩ := List.map_eq_singleton_iff.mp hbefore
    refine ⟨[], m, next, after, rfl, Member.entry_eq_unit_iff.mp hm, Or.inl ⟨rfl, fun hrange ↦ ?_⟩⟩
    obtain ⟨a, b, hb, hentry⟩ := Member.isRange_iff.mp hrange
    exact hnext a b hb hentry
  · rw [List.reverse_cons, List.reverse_cons] at hbefore
    obtain ⟨before, top, rfl, hinit, htop⟩ := List.map_eq_append_iff.mp hbefore
    obtain ⟨m, rfl, hm⟩ := List.map_eq_singleton_iff.mp htop
    obtain ⟨init, top, rfl, -, htop⟩ := List.map_eq_append_iff.mp hinit
    obtain ⟨m', rfl, rfl⟩ := List.map_eq_singleton_iff.mp htop
    refine ⟨init ++ [m'], m, next, after, by simp, Member.entry_eq_unit_iff.mp hm,
      Or.inr ⟨⟨m', by simp, ?_⟩, u, Member.entry_eq_unit_iff.mp hu⟩⟩
    cases hm' : m'.entry with
    | unit v => exact Or.inr ⟨v, Member.entry_eq_unit_iff.mp hm'⟩
    | range a b hb => exact Or.inl (Member.isRange_iff.mpr ⟨a, b, hb, hm'⟩)
    | set s => exact absurd hm' (hlast s)

/-! ### Reading -/

theorem items_ofSet (negated : Bool) (t : CodeSet) :
    (Entry.ofSet negated t).items = [.part (.leaf (bracketTree negated t))] := by
  cases negated with
  | true => rfl
  | false =>
    cases hsingle : t.single? <;>
      simp [Entry.ofSet, bracketTree, hsingle, Entry.items, unitItem]

theorem closeBracket_members {negated : Bool} {members : List Member} {level closing opening : Nat}
    {stack : List Item} (hproper : Proper negated members) (hclear : ¬ Misread members) :
    closeBracket negated (level + 1) closing
        (inBrackets level opening (members.map Member.entry).reverse stack) =
      .ok ((Member.nested negated members).entry.items ++ stack) := by
  have hset : (members.map Member.entry).reverse.foldl Entry.addTo .empty = setOf members := by
    rw [List.foldl_reverse, setOf_eq_foldr]
  rw [closeBracket, gatherSet_inBrackets (clear_of_not_misread hclear), hset, Member.entry,
    items_ofSet]
  simp [bind, Except.bind, pure, Except.pure, isEmpty_setOf hproper]

section Reading

variable {pattern : Text} {offset level : Nat} {mode outer : Mode} {negated : Bool}
  {stack : List Item} {s : Sharing} {rest : List CodeUnit}

/-- An opening bracket is read with the caret that negates it, as long as there are levels left. -/
theorem run_openBracket (negated : Bool)
    (hmode : mode.special.lookup ('[' : CodeUnit) = some .openBracket)
    (hlevel : level < maxNestingDepth)
    (hcaret : negated = false → rest.head? ≠ some ('^' : CodeUnit))
    (h : pattern.toList.drop offset =
      ('[' : CodeUnit) :: ((if negated then [('^' : CodeUnit)] else []) ++ rest)) :
    run pattern ⟨offset, mode, level, stack⟩ s =
      run pattern ⟨offset + 1 + (if negated then 1 else 0), .bracket negated mode, level + 1,
        .marker (.openBracket level offset) :: stack⟩ s := by
  have hmodified : Token.modified pattern ⟨.openBracket, offset, offset + 1⟩ = negated := by
    rw [Token.modified_eq (Text.drop_succ_of_drop h) rfl]
    cases negated with
    | true => simp
    | false => simpa using hcaret rfl
  have henter : ReadState.enter ⟨offset, mode, level, stack⟩ (.openBracket level offset) =
      .ok ⟨offset, mode, level + 1, .marker (.openBracket level offset) :: stack⟩ := by
    rw [ReadState.enter, if_neg (Nat.not_le.mpr hlevel)]
    rfl
  have hreact : ReadState.react ⟨offset, mode, level, stack⟩ s ⟨.openBracket, offset, offset + 1⟩
      (Token.modified pattern ⟨.openBracket, offset, offset + 1⟩) =
      .ok (⟨offset, .bracket negated mode, level + 1,
        .marker (.openBracket level offset) :: stack⟩, s) := by
    rw [hmodified]
    simp only [ReadState.react, henter, bind, Except.bind, pure, Except.pure]
  rw [run_of_next (Text.lt_size_of_drop h) (Token.next_special h (by decide) hmode) hreact,
    Token.behind, hmodified]
  cases negated <;> rfl

/-- A closing bracket puts what the bracket expression stands for in the place of its members. -/
theorem run_closeBracket {members : List Member} {opening : Nat} (hproper : Proper negated members)
    (hclear : ¬ Misread members) (h : pattern.toList.drop offset = (']' : CodeUnit) :: rest) :
    run pattern ⟨offset, .bracket negated outer, level + 1,
        inBrackets level opening (members.map Member.entry).reverse stack⟩ s =
      run pattern ⟨offset + 1, outer, level,
        (Member.nested negated members).entry.items ++ stack⟩ s := by
  have hreact : ∀ modified, ReadState.react ⟨offset, .bracket negated outer, level + 1,
        inBrackets level opening (members.map Member.entry).reverse stack⟩ s
      ⟨.closeBracket, offset, offset + 1⟩ modified =
      .ok (⟨offset, outer, level, (Member.nested negated members).entry.items ++ stack⟩, s) := by
    intro modified
    simp only [ReadState.react, closeBracket_members hproper hclear, bind, Except.bind, pure,
      Except.pure, Nat.add_sub_cancel]
  rw [run_of_next (Text.lt_size_of_drop h) (Token.next_special h (by decide) rfl) (hreact _),
    Token.behind_of_none rfl]

theorem SetItem.reads (i : SetItem) (h : pattern.toList.drop offset = i.render ++ rest) :
    run pattern ⟨offset, .bracket negated outer, level, stack⟩ s =
      run pattern ⟨offset + i.render.length, .bracket negated outer, level,
        i.entry.items ++ stack⟩ s := by
  cases i with
  | unit u =>
    have hunits : (unit u).render = [u].flatMap (Mode.bracket negated outer).write :=
      (List.append_nil _).symm
    rw [hunits] at h ⊢
    exact run_written h
  | range a b ha hb =>
    have hunits : (range a b ha hb).render =
        [a, '-', b].flatMap (Mode.bracket negated outer).write := by
      rw [List.flatMap_cons, List.flatMap_cons, List.flatMap_singleton]
      rfl
    rw [hunits] at h ⊢
    exact run_written h
  | builtin b complemented =>
    exact run_push (Text.lt_size_of_drop h) (next_builtinName h) rfl fun _ _ _ ↦ rfl

/-- A bracket expression is read if its members are. -/
theorem run_nested {members : List Member}
    (hmode : mode.special.lookup ('[' : CodeUnit) = some .openBracket)
    (hlevel : level < maxNestingDepth)
    (hproper : Proper negated members) (hclear : ¬ Misread members)
    (hmembers : ∀ {offset : Nat} {stack : List Item} {rest : List CodeUnit},
      pattern.toList.drop offset = renderAll members ++ rest →
        run pattern ⟨offset, .bracket negated mode, level + 1, stack⟩ s =
          run pattern ⟨offset + (renderAll members).length, .bracket negated mode, level + 1,
            (members.map Member.entry).reverse.flatMap Entry.items ++ stack⟩ s)
    (h : pattern.toList.drop offset = (Member.nested negated members).render ++ rest) :
    run pattern ⟨offset, mode, level, stack⟩ s =
      run pattern ⟨offset + (Member.nested negated members).render.length, mode, level,
        (Member.nested negated members).entry.items ++ stack⟩ s := by
  have hopen : pattern.toList.drop offset = ('[' : CodeUnit) ::
      ((if negated then [('^' : CodeUnit)] else []) ++
        (renderAll members ++ (']' : CodeUnit) :: rest)) := by
    rw [h, Member.render, bracketText]
    simp
  have hinside : pattern.toList.drop (offset + 1 + if negated then 1 else 0) =
      renderAll members ++ (']' : CodeUnit) :: rest := by
    have hdrop := Text.drop_add_of_drop (Text.drop_succ_of_drop hopen)
    rwa [show (if negated then [('^' : CodeUnit)] else []).length = if negated then 1 else 0 by
      cases negated <;> rfl] at hdrop
  have hcaret : negated = false →
      (renderAll members ++ (']' : CodeUnit) :: rest).head? ≠ some ('^' : CodeUnit) := by
    intro hnegated
    rw [List.head?_append]
    cases hhead : (renderAll members).head? with
    | none => exact fun h ↦ absurd (Option.some.inj h) (by decide)
    | some u => exact hhead.symm.trans_ne (hproper.caret hnegated)
  rw [run_openBracket negated hmode hlevel hcaret hopen, hmembers hinside]
  refine (run_closeBracket hproper hclear (Text.drop_add_of_drop hinside)).trans ?_
  rw [Member.render, bracketText]
  congr 2
  cases negated <;> simp <;> omega

mutual

theorem Member.reads (m : Member) {offset level : Nat} {negated : Bool} {outer : Mode}
    (stack : List Item) {rest : List CodeUnit} (hlevel : level + m.depth ≤ maxNestingDepth)
    (hproper : m.Every Proper) (hclear : m.Every fun _ members ↦ ¬ Misread members)
    (h : pattern.toList.drop offset = m.render ++ rest) :
    run pattern ⟨offset, .bracket negated outer, level, stack⟩ s =
      run pattern ⟨offset + m.render.length, .bracket negated outer, level,
        m.entry.items ++ stack⟩ s := by
  match m with
  | .item i => exact i.reads h
  | .nested complemented members =>
    rw [Member.depth] at hlevel
    have hinside : level + 1 + depthOf members ≤ maxNestingDepth := by omega
    exact run_nested rfl (by omega) hproper.1 hclear.1
      (readsAll members _ hinside hproper.2 hclear.2) h

theorem readsAll (members : List Member) {offset level : Nat} {negated : Bool} {outer : Mode}
    (stack : List Item) {rest : List CodeUnit} (hlevel : level + depthOf members ≤ maxNestingDepth)
    (hproper : EveryIn Proper members)
    (hclear : EveryIn (fun _ members ↦ ¬ Misread members) members)
    (h : pattern.toList.drop offset = renderAll members ++ rest) :
    run pattern ⟨offset, .bracket negated outer, level, stack⟩ s =
      run pattern ⟨offset + (renderAll members).length, .bracket negated outer, level,
        (members.map Member.entry).reverse.flatMap Entry.items ++ stack⟩ s := by
  match members with
  | [] => rfl
  | m :: members =>
    rw [depthOf] at hlevel
    have hfirst : level + m.depth ≤ maxNestingDepth := by omega
    have hrest : level + depthOf members ≤ maxNestingDepth := by omega
    rw [renderAll, List.append_assoc] at h
    rw [m.reads stack hfirst hproper.1 hclear.1 h,
      readsAll members _ hrest hproper.2 hclear.2 (Text.drop_add_of_drop h), renderAll]
    simp [Nat.add_assoc]

end

end Reading

/-- A bracket expression is read as one node, unless it is too long. -/
theorem parse_bracket {negated : Bool} {members : List Member}
    (hdepth : (Member.nested negated members).depth ≤ maxNestingDepth)
    (hproper : (Member.nested negated members).Every Proper)
    (hclear : (Member.nested negated members).Every fun _ members ↦ ¬ Misread members)
    (maxLength : Int) :
    Regex.parse (Member.nested negated members).render.toArray maxLength =
        .ok (bracketTree negated (setOf members)) ↔
      (Member.nested negated members).render.length ≤ maxLength := by
  rw [Member.depth] at hdepth
  have hinside : 0 + 1 + depthOf members ≤ maxNestingDepth := by omega
  have hpattern : (Member.nested negated members).render.toArray.toList.drop 0 =
      (Member.nested negated members).render ++ [] := by simp
  have hend : (Member.nested negated members).render.toArray.size ≤
      0 + (Member.nested negated members).render.length := by simp
  have hrun : run (Member.nested negated members).render.toArray {} {} = _ :=
    (run_nested rfl (by omega) hproper.1 hclear.1
      (readsAll members _ hinside hproper.2 hclear.2) hpattern).trans
        (ReadState.run_of_size_le hend)
  rw [Member.entry, items_ofSet] at hrun
  have hclass := (denotes_setOf members).isClass_bracketTree negated
  have hresult := ReadState.result_part Sharing.sound_empty
    (Sharing.sound_empty.holds_leaf hclass.nodeCount) (hclass.nodeCount ▸ by decide)
  exact parse_iff_of_run hrun (hresult _ _ _) maxLength

end Written

end ExtendedRegex
