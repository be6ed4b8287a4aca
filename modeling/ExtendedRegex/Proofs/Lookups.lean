import ExtendedRegex.CodeSet.Builtin
import ExtendedRegex.Proofs.SearchTree
import Mathlib.Algebra.Group.Nat.Defs
import Mathlib.Data.Nat.Size

/-!
Two ways to look up a code in a set: down the search tree, and by halving the stretch of ranges that
can hold it. Both answer membership. A way down the tree passes no more ranges than the number of
ranges has binary digits.
-/

set_option autoImplicit false
set_option relaxedAutoImplicit false

namespace ExtendedRegex

/-! ### Ways down a tree -/

namespace RangeTree

/-- The ranges that are passed on each way from the root to a leaf. -/
def paths : RangeTree → List (List CodeRange)
  | leaf => [[]]
  | node r left right => (left.paths ++ right.paths).map (r :: ·)

/-- Every step down halves the number of ranges. -/
theorem length_le_of_mem_paths {ranges path : List CodeRange} {n : Nat}
    (h : path ∈ (ofList ranges).paths) (hn : ranges.length < 2 ^ n) : path.length ≤ n := by
  induction ranges using ofList_induction generalizing path n with
  | nil =>
    rw [ofList_nil, paths, List.mem_singleton] at h
    rw [h]
    exact Nat.zero_le n
  | middle below r above hmiddle ihbelow ihabove =>
    rw [ofList_middle hmiddle, paths, List.mem_map] at h
    obtain ⟨rest, hrest, rfl⟩ := h
    rw [List.length_append, List.length_cons] at hn
    cases n with
    | zero => omega
    | succ n =>
      have hpow : 2 ^ (n + 1) = 2 ^ n * 2 := Nat.pow_succ 2 n
      rw [List.length_cons]
      refine Nat.succ_le_succ ?_
      rcases List.mem_append.mp hrest with hrest | hrest
      · exact ihbelow hrest (by omega)
      · exact ihabove hrest (by omega)

end RangeTree

/-! ### Binary search -/

namespace CodeSet

section Search

variable {ranges : Array CodeRange} {code : Int}

theorem ends_mono (h : ranges.toList.Pairwise CodeRange.Before) {i j : Nat} (hij : i ≤ j)
    (hj : j < ranges.size) : ranges[i].lo ≤ ranges[j].lo ∧ ranges[i].hi ≤ ranges[j].hi := by
  rcases Nat.lt_or_eq_of_le hij with hlt | rfl
  · have hbefore : ranges[i].hi + 1 < ranges[j].lo :=
      List.pairwise_iff_getElem.mp h i j (Nat.lt_trans hlt hj) hj hlt
    have := ranges[i].lo_le_hi
    have := ranges[j].lo_le_hi
    omega
  · exact ⟨Int.le_refl _, Int.le_refl _⟩

variable {low high : Nat} {bound : high ≤ ranges.size}

/-- What is found is there, in whatever order the ranges are. -/
theorem exists_of_searchBetween (h : searchBetween ranges code low high bound = true) :
    ∃ r ∈ ranges, code ∈ r := by
  fun_induction searchBetween ranges code low high bound with
  | case1 low high bound hlt middle r hbelow ih => exact ih h
  | case2 low high bound hlt middle r hbelow habove ih => exact ih h
  | case3 low high bound hlt middle r hbelow habove =>
    exact ⟨r, Array.getElem_mem _, Int.not_lt.mp hbelow, Int.not_lt.mp habove⟩
  | case4 low high bound hlt => cases h

/-- In ascending ranges, the one that holds the code is never cut off. -/
theorem searchBetween_of_mem (h : ranges.toList.Pairwise CodeRange.Before) {i : Nat}
    (hi : i < ranges.size) (hmem : code ∈ ranges[i]) (hlow : low ≤ i) (hhigh : i < high) :
    searchBetween ranges code low high bound = true := by
  fun_induction searchBetween ranges code low high bound with
  | case1 low high bound hlt middle r hbelow ih =>
    refine ih hlow (Nat.lt_of_not_le fun hle ↦ ?_)
    have hlo : r.lo ≤ ranges[i].lo := (ends_mono h hle hi).1
    have := hmem.1
    omega
  | case2 low high bound hlt middle r hbelow habove ih =>
    refine ih (Nat.lt_of_not_le fun hle ↦ ?_) hhigh
    have hhi : ranges[i].hi ≤ r.hi := (ends_mono h hle (by omega)).2
    have := hmem.2
    omega
  | case3 low high bound hlt middle r hbelow habove => rfl
  | case4 low high bound hlt => omega

end Search

variable {s : CodeSet} {code : Int}

theorem contains_eq_true_iff : s.contains code = true ↔ code ∈ s := by
  constructor
  · exact exists_of_searchBetween
  · rintro ⟨r, hr, hmem⟩
    obtain ⟨i, hi, rfl⟩ := Array.mem_iff_getElem.mp hr
    exact searchBetween_of_mem s.separated hi hmem (Nat.zero_le i) hi

/-- For each set, going down the tree and halving the ranges both answer whether one of the ranges
holds a code; the tree lists the ranges in their order, and on no way down are there more of them
than the number of ranges has binary digits. -/
theorem lookups_agree (s : CodeSet) :
    (∀ code, (s.tree.contains code = true ↔ ∃ r ∈ s.ranges, r.lo ≤ code ∧ code ≤ r.hi) ∧
      s.contains code = s.tree.contains code) ∧
    s.tree.toList = s.ranges.toList ∧
    ∀ path ∈ s.tree.paths, path.length ≤ Nat.size s.ranges.size := by
  refine ⟨fun code ↦ ⟨s.contains_tree code, ?_⟩, RangeTree.toList_ofList _, fun path hpath ↦ ?_⟩
  · rw [Bool.eq_iff_iff, contains_eq_true_iff, contains_tree]
  · exact RangeTree.length_le_of_mem_paths hpath (Nat.lt_size_self _)

/-- Of the four ranges of the word units, the way to `z` passes three, as many as it may. -/
theorem lookups_agree_word :
    ∃ path ∈ word.tree.paths, path.length = 3 ∧ path.length ≤ Nat.size word.ranges.size ∧
      Nat.size word.ranges.size = 3 := by
  have hranges : word.ranges.toList =
      ([] ++ .ofChars '0' '9' :: []) ++ .ofChars 'A' 'Z' ::
        ([] ++ .ofChars '_' '_' :: ([] ++ .ofChars 'a' 'z' :: [])) := by
    decide
  have hpath : [.ofChars 'A' 'Z', .ofChars '_' '_', .ofChars 'a' 'z'] ∈ word.tree.paths := by
    rw [tree, hranges]
    repeat rw [RangeTree.ofList_middle rfl]
    rw [RangeTree.ofList_nil]
    decide
  exact ⟨_, hpath, rfl, (lookups_agree word).2.2 _ hpath, by decide⟩

end CodeSet

end ExtendedRegex
