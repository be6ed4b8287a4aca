import ExtendedRegex.Pattern.Bound

/-!
Parts and their sizes. Each part on the stack of a pattern stands at the place that the record of
operands has for it, so the size that is measured there is the number of nodes of its tree, with
every repetition written out; building further trees does not change the places of the earlier ones.
-/

set_option autoImplicit false
set_option relaxedAutoImplicit false

namespace ExtendedRegex

namespace OperandRecord

variable {record : OperandRecord} {place : Nat} {operands : List Nat}

theorem operands_push_of_lt (h : place < record.size) :
    OperandRecord.operands (record.push operands) place = record.operands place := by
  rw [OperandRecord.operands, OperandRecord.operands, Array.getD_eq_getD_getElem?,
    Array.getD_eq_getD_getElem?, Array.getElem?_push_lt h, Array.getElem?_eq_getElem h]

/-- What is recorded later does not change the size of a place. -/
theorem unfoldedSize_push (h : place < record.size) :
    unfoldedSize (record.push operands) place = record.unfoldedSize place := by
  induction place using Nat.strongRecOn with
  | _ place ih =>
    rw [unfoldedSize_eq, unfoldedSize_eq, operands_push_of_lt h]
    congr 2
    refine List.map_congr_left fun operand hoperand ↦ ?_
    have hlt := lt_of_mem_operands hoperand
    exact ih operand hlt (Nat.lt_trans hlt h)

/-- The size of a new place, whose operands have been recorded before. -/
theorem unfoldedSize_push_size (h : ∀ operand ∈ operands, operand < record.size) :
    unfoldedSize (record.push operands) record.size =
      1 + total (operands.map record.unfoldedSize) := by
  have hoperands : OperandRecord.operands (record.push operands) record.size = operands := by
    simpa [OperandRecord.operands, Array.getD_eq_getD_getElem?] using h
  rw [unfoldedSize_eq, hoperands]
  congr 2
  exact List.map_congr_left fun operand hoperand ↦ unfoldedSize_push (h operand hoperand)

end OperandRecord

namespace SizeTable

variable {record : OperandRecord} {table table' : SizeTable} {place : Nat} {places : List Nat}

/-- A table of sizes of places in the record. -/
def Sound (record : OperandRecord) (table : SizeTable) : Prop :=
  ∀ place ∈ table, place < record.size ∧ table.getD place 0 = record.unfoldedSize place

/-- A sound table with these places in it, besides those of a table before. -/
structure Filled (record : OperandRecord) (table : SizeTable) (places : List Nat)
    (table' : SizeTable) : Prop where
  sound : table'.Sound record
  mem : ∀ place ∈ places, place ∈ table'
  subset : ∀ place ∈ table, place ∈ table'

/-- A place is entered with its size once the table holds its operands. -/
theorem filled_insert (htable : table.Sound record) (hplace : place < record.size)
    (hoperands : ∀ operand ∈ record.operands place, operand ∈ table) :
    Filled record table [place] (table.insert place
      (1 + total ((record.operands place).map fun operand ↦ table.getD operand 0))) := by
  have hsize : 1 + total ((record.operands place).map fun operand ↦ table.getD operand 0) =
      record.unfoldedSize place := by
    rw [record.unfoldedSize_eq]
    congr 2
    exact List.map_congr_left fun operand h ↦ (htable operand (hoperands operand h)).2
  rw [hsize]
  refine ⟨fun q hq ↦ ?_, by simp, fun q hq ↦ Std.HashMap.mem_insert.mpr (Or.inr hq)⟩
  rw [Std.HashMap.getD_insert]
  by_cases heq : place = q
  · subst heq
    simpa using hplace
  · rcases Std.HashMap.mem_insert.mp hq with hq | hq
    · exact absurd (beq_iff_eq.mp hq) heq
    · simpa [heq] using htable q hq

/-- The walk leaves a sound table with all places in it that were pending. -/
theorem filled_fill (htable : table.Sound record)
    (hplaces : ∀ place ∈ places, place < record.size) :
    Filled record table places (fill record table places) := by
  fun_induction fill record table places with
  | case1 table => exact ⟨htable, by simp, fun _ h ↦ h⟩
  | case2 table place pending hmem ih =>
    have hfilled := ih htable (List.forall_mem_cons.mp hplaces).2
    exact ⟨hfilled.sound, List.forall_mem_cons.mpr ⟨hfilled.subset place hmem, hfilled.mem⟩,
      hfilled.subset⟩
  | case3 table place pending _ missing hmissing size ih =>
    obtain ⟨hplace, hpending⟩ := List.forall_mem_cons.mp hplaces
    have hinsert := filled_insert htable hplace (by simpa [missing] using hmissing)
    have hfilled := ih hinsert.sound hpending
    exact ⟨hfilled.sound, List.forall_mem_cons.mpr
      ⟨hfilled.subset place (hinsert.mem place List.mem_cons_self), hfilled.mem⟩,
      fun q hq ↦ hfilled.subset q (hinsert.subset q hq)⟩
  | case4 table place pending _ missing _ ih =>
    have hoperands : ∀ operand ∈ missing.reverse, operand < record.size := by
      intro operand hoperand
      have hmem := (List.mem_filter.mp (List.mem_reverse.mp hoperand)).1
      exact Nat.lt_trans (OperandRecord.lt_of_mem_operands hmem) (hplaces place List.mem_cons_self)
    have hfilled := ih htable (List.forall_mem_append.mpr ⟨hoperands, hplaces⟩)
    exact ⟨hfilled.sound, (List.forall_mem_append.mp hfilled.mem).2, hfilled.subset⟩

end SizeTable

namespace Sharing

variable {s s' s'' : Sharing} {p q : Part} {e : Regex} {x : Part × Sharing}

structure Sound (s : Sharing) : Prop where
  /-- The first place is that of the trees without operands. -/
  record_pos : 0 < s.record.size
  sizes : s.sizes.Sound s.record

/-- A part stands at a place that has the size of its tree. -/
structure Holds (s : Sharing) (p : Part) : Prop where
  place_lt : p.place < s.record.size
  size_eq : s.record.unfoldedSize p.place = p.tree.nodeCount

/-- A later record, in which earlier parts still stand at their places. -/
structure Grows (s s' : Sharing) : Prop where
  sound : s'.Sound
  holds : ∀ p, s.Holds p → s'.Holds p

/-- A part with a tree has been built, and has its place in the record. -/
structure Makes (s : Sharing) (x : Part × Sharing) (e : Regex) : Prop where
  tree_eq : x.1.tree = e
  holds : x.2.Holds x.1
  grows : s.Grows x.2

theorem Grows.refl (h : s.Sound) : s.Grows s := ⟨h, fun _ hp ↦ hp⟩

theorem Grows.trans (h : s.Grows s') (h' : s'.Grows s'') : s.Grows s'' :=
  ⟨h'.sound, fun p hp ↦ h'.holds p (h.holds p hp)⟩

theorem Grows.makes (h : s.Grows s') (hx : s'.Makes x e) : s.Makes x e :=
  ⟨hx.tree_eq, hx.holds, h.trans hx.grows⟩

theorem sound_empty : Sound {} := ⟨by decide, fun place h ↦ by simp at h⟩

theorem Sound.holds_leaf (h : s.Sound) (he : e.nodeCount = 1) : s.Holds (.leaf e) := by
  refine ⟨h.record_pos, ?_⟩
  rw [OperandRecord.unfoldedSize_eq, Part.leaf, he]
  have hvoid : s.record.operands 0 = [] := by simp [OperandRecord.operands]
  rw [hvoid]
  rfl

/-- Measuring a part gives the number of nodes of its tree. -/
theorem measure_spec (h : s.Sound) (hp : s.Holds p) :
    (s.measure p.place).1 = p.tree.nodeCount ∧ s.Grows (s.measure p.place).2 := by
  have hfilled := SizeTable.filled_fill h.sizes (List.forall_mem_singleton.mpr hp.place_lt)
  refine ⟨?_, ⟨h.record_pos, hfilled.sound⟩, fun q hq ↦ ⟨hq.place_lt, hq.size_eq⟩⟩
  exact ((hfilled.sound _ (hfilled.mem _ List.mem_cons_self)).2).trans hp.size_eq

theorem grows_add (h : s.Sound) (operands : List Nat) : s.Grows (s.add operands).2 := by
  have hlt : ∀ {place}, place < s.record.size → place < (s.record.push operands).size := by
    intro place hplace
    rw [Array.size_push]
    exact Nat.lt_succ_of_lt hplace
  refine ⟨⟨hlt h.record_pos, fun place hplace ↦ ?_⟩, fun p hp ↦ ?_⟩
  · obtain ⟨hmem, hsize⟩ := h.sizes place hplace
    exact ⟨hlt hmem, hsize.trans (OperandRecord.unfoldedSize_push hmem).symm⟩
  · exact ⟨hlt hp.place_lt, (OperandRecord.unfoldedSize_push hp.place_lt).trans hp.size_eq⟩

/-- Building a tree from parts whose sizes add up. -/
theorem makes_add (h : s.Sound) (parts : List Part) (hparts : ∀ p ∈ parts, s.Holds p)
    (hsize : e.nodeCount = 1 + total (parts.map fun p ↦ p.tree.nodeCount)) :
    s.Makes (⟨e, (s.add (parts.map Part.place)).1⟩, (s.add (parts.map Part.place)).2) e := by
  refine ⟨rfl, ⟨by simp [add], ?_⟩, grows_add h _⟩
  have hplaces : ∀ place ∈ parts.map Part.place, place < s.record.size := by
    intro place hplace
    obtain ⟨p, hp, rfl⟩ := List.mem_map.mp hplace
    exact (hparts p hp).place_lt
  rw [add, OperandRecord.unfoldedSize_push_size hplaces, hsize, List.map_map]
  congr 2
  exact List.map_congr_left fun p hp ↦ (hparts p hp).size_eq

theorem makes_wrap (h : s.Sound) (hp : s.Holds p) (build : Regex → Regex)
    (hsize : (build p.tree).nodeCount = 1 + p.tree.nodeCount) :
    s.Makes (p.wrap build s) (build p.tree) :=
  makes_add h [p] (by simpa using hp) (by simpa using hsize)

theorem makes_join (h : s.Sound) (hp : s.Holds p) (hq : s.Holds q) (build : Regex → Regex → Regex)
    (hsize : (build p.tree q.tree).nodeCount = 1 + p.tree.nodeCount + q.tree.nodeCount) :
    s.Makes (p.join build q s) (build p.tree q.tree) :=
  makes_add h [p, q] (by simpa using ⟨hp, hq⟩) (by simpa [Nat.add_assoc] using hsize)

/-! ### Repetitions -/

theorem makes_sequence (h : s.Sound) (parts : List Part) (hparts : ∀ p ∈ parts, s.Holds p) :
    s.Makes (Part.sequence parts s) (Regex.sequence (parts.map Part.tree)) := by
  cases parts with
  | nil => exact ⟨rfl, h.holds_leaf rfl, .refl h⟩
  | cons p rest =>
    rw [Part.sequence, List.map_cons, Regex.sequence]
    induction rest generalizing p s with
    | nil => exact ⟨rfl, hparts p List.mem_cons_self, .refl h⟩
    | cons q rest ih =>
      have hjoin := makes_join h (hparts p (by simp)) (hparts q (by simp)) .cat rfl
      refine hjoin.grows.makes (ih hjoin.grows.sound _ fun r hr ↦ ?_)
      rcases List.mem_cons.mp hr with rfl | hr
      · exact hjoin.holds
      · exact hjoin.grows.holds r (hparts r (by simp [hr]))

end Sharing

theorem Part.tree_sequence (parts : List Part) (s : Sharing) :
    (Part.sequence parts s).1.tree = Regex.sequence (parts.map Part.tree) := by
  cases parts with
  | nil => rfl
  | cons p rest =>
    rw [sequence, List.map_cons, Regex.sequence]
    induction rest generalizing p s with
    | nil => rfl
    | cons q rest ih => exact ih _ _

namespace Bound

variable {s : Sharing} {p : Part} {b : Bound}

/-- The copies that an operand with a bound is replaced by, all of them with the same groups. -/
def copies (b : Bound) (e : Regex) : List Regex :=
  match b.low, b.high with
  | .exact 0, none => [.star e true]
  | .exact (n + 1), none => List.replicate n e ++ [.plus e true]
  | .indeterminate, none => [.plus e true]
  | .exact low, some (.exact high) =>
    List.replicate low e ++ List.replicate (high - low) (.opt e false)
  | .exact low, some .indeterminate => List.replicate low e
  | .indeterminate, some _ => []

theorem tree_expand (b : Bound) (p : Part) (s : Sharing) :
    (b.expand p s).1.tree = Regex.sequence (b.copies p.tree) := by
  obtain ⟨low, high⟩ := b
  rcases low with (_ | low) | _ <;> rcases high with _ | high | _ <;>
    simp [expand, copies, Part.tree_sequence, Regex.sequence, Part.wrap, Part.leaf]

/-- The expansion of a part has its place in the record. -/
theorem makes_expand (h : s.Sound) (hp : s.Holds p) (b : Bound) :
    s.Makes (b.expand p s) (Regex.sequence (b.copies p.tree)) := by
  obtain ⟨low, high⟩ := b
  have hcopies : ∀ n, ∀ q ∈ List.replicate n p, s.Holds q :=
    fun n q hq ↦ (List.eq_of_mem_replicate hq) ▸ hp
  cases low with
  | exact low =>
    cases high with
    | none =>
      cases low with
      | zero => exact Sharing.makes_wrap h hp (.star · true) rfl
      | succ n =>
        have hlast := Sharing.makes_wrap h hp (.plus · true) rfl
        refine hlast.grows.makes ?_
        have hmakes := Sharing.makes_sequence hlast.grows.sound
          (List.replicate n p ++ [(p.wrap (.plus · true) s).1]) fun q hq ↦ ?_
        · rwa [List.map_append, List.map_replicate] at hmakes
        · rcases List.mem_append.mp hq with hq | hq
          · exact hlast.grows.holds q (hcopies _ q hq)
          · exact List.mem_singleton.mp hq ▸ hlast.holds
    | some high =>
      cases high with
      | exact high =>
        have hoptional := Sharing.makes_wrap h hp (.opt · false) rfl
        refine hoptional.grows.makes ?_
        have hmakes := Sharing.makes_sequence hoptional.grows.sound
          (List.replicate low p ++
            List.replicate (high - low) (p.wrap (.opt · false) s).1) fun q hq ↦ ?_
        · simpa only [expand, copies, List.map_append, List.map_replicate, hoptional.tree_eq]
            using hmakes
        · rcases List.mem_append.mp hq with hq | hq
          · exact hoptional.grows.holds q (hcopies _ q hq)
          · exact (List.eq_of_mem_replicate hq) ▸ hoptional.holds
      | indeterminate =>
        simpa only [expand, copies, List.map_replicate] using
          Sharing.makes_sequence h _ (hcopies low)
  | indeterminate =>
    cases high with
    | none => exact Sharing.makes_wrap h hp (.plus · true) rfl
    | some high => exact ⟨rfl, h.holds_leaf rfl, .refl h⟩

end Bound

end ExtendedRegex
