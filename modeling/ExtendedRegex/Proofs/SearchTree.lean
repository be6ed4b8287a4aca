import ExtendedRegex.CodeSet.Tree

/-!
Search trees over ascending ranges. A tree is built from the middle range outwards, keeps the ranges
in their order and answers membership in them.
-/

set_option autoImplicit false
set_option relaxedAutoImplicit false

namespace ExtendedRegex

namespace RangeTree

theorem ofList_nil : ofList [] = leaf := by
  rw [ofList]
  rfl

/-- The middle range is the root, between the trees of the ranges on its two sides. -/
theorem ofList_middle {below above : List CodeRange} {r : CodeRange}
    (h : below.length = (below.length + above.length) / 2) :
    ofList (below ++ r :: above) = node r (ofList below) (ofList above) := by
  have hmiddle : ((below ++ r :: above).length - 1) / 2 = below.length := by
    rw [List.length_append, List.length_cons]
    omega
  rw [ofList]
  split
  · next heq =>
    simp only [hmiddle, List.drop_left] at heq
    cases heq
  · next r' above' heq =>
    simp only [hmiddle, List.drop_left, List.cons.injEq] at heq
    rw [hmiddle, List.take_left, heq.1, heq.2]

/-- Induction along the building of a tree, from the ranges on both sides of the middle one. -/
@[elab_as_elim]
theorem ofList_induction {motive : List CodeRange → Prop} (nil : motive [])
    (middle : ∀ below r above, below.length = (below.length + above.length) / 2 →
      motive below → motive above → motive (below ++ r :: above)) (ranges : List CodeRange) :
    motive ranges := by
  induction ranges using ofList.induct with
  | case1 ranges h =>
    have hlength := congrArg List.length h
    simp only [List.length_drop, List.length_nil] at hlength
    obtain rfl := List.length_eq_zero_iff.mp (by omega : ranges.length = 0)
    exact nil
  | case2 ranges r above h hbelow habove =>
    have hlength := congrArg List.length h
    simp only [List.length_drop, List.length_cons] at hlength
    have hranges := List.take_append_drop ((ranges.length - 1) / 2) ranges
    rw [h] at hranges
    rw [← hranges]
    refine middle _ r above ?_ hbelow habove
    rw [List.length_take]
    omega

@[simp] theorem toList_ofList (ranges : List CodeRange) : (ofList ranges).toList = ranges := by
  induction ranges using ofList_induction with
  | nil => rw [ofList_nil, toList]
  | middle below r above h hbelow habove => rw [ofList_middle h, toList, hbelow, habove]

/-- The tree of an ascending list contains the codes of its ranges. -/
theorem contains_ofList {ranges : List CodeRange} (h : ranges.Pairwise CodeRange.Before)
    (code : Int) : (ofList ranges).contains code = true ↔ ∃ r ∈ ranges, code ∈ r := by
  induction ranges using ofList_induction with
  | nil => simp [ofList_nil, contains]
  | middle below r above hlength ihbelow ihabove =>
    obtain ⟨hbelow, hcons, hcross⟩ := List.pairwise_append.mp h
    obtain ⟨hr, habove⟩ := List.pairwise_cons.mp hcons
    have hbefore : ∀ s ∈ below, s.hi + 1 < r.lo := fun s hs ↦ hcross s hs r List.mem_cons_self
    have hafter : ∀ s ∈ above, r.hi + 1 < s.lo := hr
    have hle := r.lo_le_hi
    rw [ofList_middle hlength, contains]
    simp only [List.mem_append, List.mem_cons, or_and_right, exists_or, exists_eq_left]
    split
    · next hlt =>
      rw [ihbelow hbelow]
      refine ⟨Or.inl, ?_⟩
      rintro (hin | hin | ⟨s, hs, hin⟩)
      · exact hin
      · exact absurd hin.1 (by omega)
      · have := hafter s hs
        exact absurd hin.1 (by omega)
    · split
      · next hlt =>
        rw [ihabove habove]
        refine ⟨fun hin ↦ Or.inr (Or.inr hin), ?_⟩
        rintro (⟨s, hs, hin⟩ | hin | hin)
        · have := hbefore s hs
          exact absurd hin.2 (by omega)
        · exact absurd hin.2 (by omega)
        · exact hin
      · next hlo hhi => simp only [true_iff]; exact Or.inr (Or.inl ⟨by omega, by omega⟩)

end RangeTree

instance (code : Int) (s : CodeSet) : Decidable (code ∈ s) :=
  inferInstanceAs (Decidable (∃ r ∈ s.ranges, code ∈ r))

theorem CodeSet.contains_tree (s : CodeSet) (code : Int) :
    s.tree.contains code = true ↔ code ∈ s := by
  rw [tree, RangeTree.contains_ofList s.separated]
  simp only [Array.mem_toList_iff]
  exact Iff.rfl

end ExtendedRegex
