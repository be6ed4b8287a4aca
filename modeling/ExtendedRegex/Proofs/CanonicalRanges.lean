import ExtendedRegex.Proofs.Membership
import Mathlib.Data.List.Pairwise
import Mathlib.Data.List.Sort

/-!
Each set of codes has one list of ranges: ascending, without overlaps and with a gap between
neighbours. Adding a range, joining two sets and taking the complement all lead to such a list, so
it does not matter in which order a set is put together.
-/

set_option autoImplicit false
set_option relaxedAutoImplicit false

namespace ExtendedRegex

/-! ### Canonical form -/

/-- Ranges in canonical form, each given by its two ends. The ends of a range are in order, the
ranges ascend, no code is in two of them, and none starts right behind another one. -/
structure Canonical (ends : List (Int × Int)) : Prop where
  ordered : ∀ e ∈ ends, e.1 ≤ e.2
  ascending : ends.Pairwise fun e f ↦ e.1 ≤ f.1
  disjoint : ends.Pairwise fun e f ↦ ∀ c, ¬ ((e.1 ≤ c ∧ c ≤ e.2) ∧ f.1 ≤ c ∧ c ≤ f.2)
  apart : ends.Pairwise fun e f ↦ e.2 + 1 ≠ f.1

theorem canonical_iff {ends : List (Int × Int)} :
    Canonical ends ↔
      (∀ e ∈ ends, e.1 ≤ e.2) ∧ ends.Pairwise fun e f ↦ e.2 + 1 < f.1 := by
  constructor
  · intro h
    refine ⟨h.ordered, ?_⟩
    refine ((h.ascending.and h.disjoint).and h.apart).imp_of_mem fun {e f} he hf hef ↦ ?_
    obtain ⟨⟨hascending, hdisjoint⟩, hapart⟩ := hef
    -- The first code of the second pair is the one that could be shared.
    have := h.ordered f hf
    have := hdisjoint f.1
    omega
  · rintro ⟨hordered, hbefore⟩
    refine ⟨hordered, hbefore.imp_of_mem fun {e f} he _ hef ↦ ?_,
      hbefore.imp fun {e f} hef c ↦ ?_, hbefore.imp fun {e f} hef ↦ ?_⟩
    · have := hordered e he
      omega
    · omega
    · omega

namespace CodeSet

/-- The ends of the ranges, from left to right. -/
def ends (s : CodeSet) : List (Int × Int) := s.ranges.toList.map fun r ↦ (r.lo, r.hi)

theorem canonical_ends (s : CodeSet) : Canonical s.ends := by
  rw [canonical_iff, ends, List.forall_mem_map, List.pairwise_map]
  exact ⟨fun r _ ↦ r.lo_le_hi, s.separated⟩

theorem exists_ends_eq {ends : List (Int × Int)} (h : Canonical ends) :
    ∃ s : CodeSet, s.ends = ends := by
  obtain ⟨hordered, hbefore⟩ := canonical_iff.mp h
  let ranges : List CodeRange := ends.pmap (fun e he ↦ ⟨e.1, e.2, he⟩) hordered
  have hends : ranges.map (fun r ↦ (r.lo, r.hi)) = ends := by
    rw [List.map_pmap]
    exact List.pmap_eq_self.mpr fun _ _ ↦ rfl
  have hseparated : ranges.Pairwise CodeRange.Before := by
    rw [← hends, List.pairwise_map] at hbefore
    exact hbefore
  exact ⟨⟨ranges.toArray, hseparated⟩, hends⟩

/-- The sets are the lists in canonical form. From each of them, adding a range with its ends in
either order leads to one that has the codes of the range in addition, and joining another set leads
to one that has the codes of both. -/
theorem insert_union_canonical :
    (∀ ends, Canonical ends ↔ ∃ s : CodeSet, s.ends = ends) ∧
    ∀ s : CodeSet,
      (∀ a b : Int, Canonical (s.insert (.between a b)).ends ∧
        ∀ c, c ∈ s.insert (.between a b) ↔ c ∈ s ∨ min a b ≤ c ∧ c ≤ max a b) ∧
      ∀ t : CodeSet, Canonical (s.union t).ends ∧ ∀ c, c ∈ s.union t ↔ c ∈ s ∨ c ∈ t := by
  refine ⟨fun ends ↦ ⟨exists_ends_eq, ?_⟩, fun s ↦ ⟨fun a b ↦ ⟨canonical_ends _, fun c ↦ ?_⟩,
    fun t ↦ ⟨canonical_ends _, fun c ↦ mem_union⟩⟩⟩
  · rintro ⟨s, rfl⟩
    exact s.canonical_ends
  · rw [mem_insert, or_comm]
    exact Iff.rfl

end CodeSet

/-! ### Uniqueness -/

/-- A range is a run of the codes with a property if all its codes have it and the codes next to it
on both sides do not. -/
structure CodeRange.IsRun (r : CodeRange) (has : Int → Prop) : Prop where
  within : ∀ c ∈ r, has c
  before : ¬ has (r.lo - 1)
  behind : ¬ has (r.hi + 1)

namespace CodeRange

variable {r s : CodeRange} {ranges : List CodeRange} {has : Int → Prop} {c : Int}

instance : Std.Irrefl Before := ⟨fun r h ↦ by
  have := r.lo_le_hi
  rw [Before] at h
  omega⟩

instance : Std.Antisymm Before := ⟨fun r s hrs hsr ↦ by
  have := r.lo_le_hi
  have := s.lo_le_hi
  rw [Before] at hrs hsr
  omega⟩

/-- Of two runs that share a code, neither goes beyond the other. -/
theorem IsRun.ends_le (hr : r.IsRun has) (hs : s.IsRun has) (hcr : c ∈ r) (hcs : c ∈ s) :
    r.lo ≤ s.lo ∧ s.hi ≤ r.hi := by
  obtain ⟨hlo, hhi⟩ := hcr
  obtain ⟨hlo', hhi'⟩ := hcs
  constructor
  · refine Int.not_lt.mp fun hlt ↦ hr.before (hs.within _ ⟨?_, ?_⟩) <;> omega
  · refine Int.not_lt.mp fun hlt ↦ hr.behind (hs.within _ ⟨?_, ?_⟩) <;> omega

theorem IsRun.eq (hr : r.IsRun has) (hs : s.IsRun has) (hcr : c ∈ r) (hcs : c ∈ s) : r = s := by
  obtain ⟨hlo, hhi⟩ := hr.ends_le hs hcr hcs
  obtain ⟨hlo', hhi'⟩ := hs.ends_le hr hcs hcr
  cases r
  cases s
  rw [mk.injEq]
  exact ⟨Int.le_antisymm hlo hlo', Int.le_antisymm hhi' hhi⟩

theorem before_or_before (h : ranges.Pairwise Before) (hr : r ∈ ranges) (hs : s ∈ ranges)
    (hne : r ≠ s) : r.hi + 1 < s.lo ∨ s.hi + 1 < r.lo := by
  have hsymm : Std.Symm fun r s : CodeRange ↦ r.Before s ∨ s.Before r := ⟨fun _ _ ↦ Or.symm⟩
  have hboth : ranges.Pairwise fun r s ↦ r.Before s ∨ s.Before r := h.imp Or.inl
  exact hboth.forall hr hs hne

/-- The ranges of an ascending list are the runs of its codes. -/
theorem mem_iff_isRun (h : ranges.Pairwise Before) :
    r ∈ ranges ↔ r.IsRun fun c ↦ ∃ s ∈ ranges, c ∈ s := by
  have hrun : ∀ r ∈ ranges, r.IsRun fun c ↦ ∃ s ∈ ranges, c ∈ s := by
    intro r hr
    have hle := r.lo_le_hi
    refine ⟨fun c hc ↦ ⟨r, hr, hc⟩, ?_, ?_⟩
    all_goals
      rintro ⟨s, hs, hlo, hhi⟩
      by_cases hne : r = s
      · subst hne
        omega
      · have := before_or_before h hr hs hne
        omega
  refine ⟨hrun r, fun hr ↦ ?_⟩
  obtain ⟨s, hs, hlo⟩ := hr.within r.lo r.lo_mem
  rwa [hr.eq (hrun s hs) r.lo_mem hlo]

end CodeRange

namespace CodeSet

variable {s t : CodeSet}

theorem eq_of_mem_iff (h : ∀ c, c ∈ s ↔ c ∈ t) : s = t := by
  have hlist : s.ranges.toList = t.ranges.toList := by
    refine s.separated.eq_of_mem_iff t.separated fun r ↦ ?_
    rw [CodeRange.mem_iff_isRun s.separated, CodeRange.mem_iff_isRun t.separated]
    simp only [← mem_iff, h]
  exact CodeSet.ext (Array.toList_inj.mp hlist)

theorem mem_full {c : Int} : c ∈ CodeSet.full ↔ minCode ≤ c ∧ c ≤ maxCode := by
  rw [mem_iff, full, List.exists_mem_cons_iff]
  simp only [List.not_mem_nil, false_and, exists_false, or_false]
  exact Iff.rfl

protected theorem Denotes.full : CodeSet.full.Denotes fun _ ↦ true := fun c ↦ by
  rw [mem_full]
  constructor
  · rintro ⟨hmin, hmax⟩
    obtain ⟨u, rfl⟩ := CodeUnit.exists_code_eq hmin hmax
    exact ⟨u, rfl, rfl⟩
  · rintro ⟨u, rfl, -⟩
    exact u.code_within

theorem Denotes.eq_iff {f g : CodeUnit → Bool} (hs : s.Denotes f) (ht : t.Denotes g) :
    s = t ↔ ∀ u, f u = g u := by
  constructor
  · rintro rfl u
    rw [Bool.eq_iff_iff, ← hs.code_mem_iff, ht.code_mem_iff]
  · intro hfg
    exact eq_of_mem_iff fun c ↦ by rw [hs, ht]; simp only [hfg]

end CodeSet

/-- How a set of units is put together. The ends of a range come in either order. -/
inductive Construction where
  | empty
  | full
  | ofRanges (ends : List (CodeUnit × CodeUnit))
  | insert (x : Construction) (a b : CodeUnit)
  | union (x y : Construction)
  | complement (x : Construction)

namespace Construction

def set : Construction → CodeSet
  | empty => .empty
  | full => .full
  | ofRanges ends => .ofRanges (ends.map fun e ↦ .between e.1.code e.2.code)
  | insert x a b => x.set.insert (.between a.code b.code)
  | union x y => x.set.union y.set
  | complement x => x.set.complement

/-- Whether a unit is in the set that is put together. -/
def has (u : CodeUnit) : Construction → Bool
  | empty => false
  | full => true
  | ofRanges ends => ends.any fun e ↦ u.IsBetween e.1 e.2
  | insert x a b => u.IsBetween a b || x.has u
  | union x y => y.has u || x.has u
  | complement x => !x.has u

/-- Each way of going on keeps track of the units in the set. -/
theorem denotes_set (x : Construction) : x.set.Denotes (x.has ·) := by
  induction x with
  | empty => exact .empty
  | full => exact .full
  | ofRanges ends => exact (CodeSet.Denotes.empty.foldl_insert ends).congr fun u ↦ Bool.false_or _
  | insert x a b ih => exact ih.insert_between a b
  | union x y ihx ihy => exact ihx.union ihy
  | complement x ih => exact ih.complement

/-- However two sets are put together, they have the same ranges as soon as they have the same units.
Ranges can be given in any order and more than once, and unions can be swapped, regrouped and
repeated, without a change to the list of ranges. -/
theorem ranges_unique :
    (∀ x y : Construction,
      x.set.ranges = y.set.ranges ↔ ∀ u : CodeUnit, u.code ∈ x.set ↔ u.code ∈ y.set) ∧
    (∀ ends ends' : List (Int × Int), (∀ e, e ∈ ends ↔ e ∈ ends') →
      (CodeSet.ofRanges (ends.map fun e ↦ .between e.1 e.2)).ranges =
        (CodeSet.ofRanges (ends'.map fun e ↦ .between e.1 e.2)).ranges) ∧
    ∀ s t u : CodeSet, (s.union t).ranges = (t.union s).ranges ∧
      ((s.union t).union u).ranges = (s.union (t.union u)).ranges ∧
      (s.union s).ranges = s.ranges := by
  refine ⟨fun x y ↦ ?_, fun ends ends' h ↦ ?_, fun s t u ↦ ⟨?_, ?_, ?_⟩⟩
  · rw [← CodeSet.ext_iff, x.denotes_set.eq_iff y.denotes_set]
    refine forall_congr' fun u ↦ ?_
    rw [x.denotes_set.code_mem_iff, y.denotes_set.code_mem_iff, Bool.eq_iff_iff]
  · refine congrArg CodeSet.ranges (CodeSet.eq_of_mem_iff fun c ↦ ?_)
    simp only [CodeSet.mem_ofRanges, List.mem_map, h]
  · refine congrArg CodeSet.ranges (CodeSet.eq_of_mem_iff fun c ↦ ?_)
    rw [CodeSet.mem_union, CodeSet.mem_union, or_comm]
  · refine congrArg CodeSet.ranges (CodeSet.eq_of_mem_iff fun c ↦ ?_)
    simp only [CodeSet.mem_union, or_assoc]
  · refine congrArg CodeSet.ranges (CodeSet.eq_of_mem_iff fun c ↦ ?_)
    rw [CodeSet.mem_union, or_self]

/-- The letters from `a` to `e`: the last range bridges single letters, or it comes first and a
letter comes twice. -/
theorem ranges_unique_bridged :
    (CodeSet.ofRanges ([(97, 97), (99, 99), (101, 101), (100, 98)].map
      fun e ↦ .between e.1 e.2)).ranges = #[.ofChars 'a' 'e'] ∧
    (CodeSet.ofRanges ([(100, 98), (101, 101), (99, 99), (97, 97), (99, 99)].map
      fun e ↦ .between e.1 e.2)).ranges = #[.ofChars 'a' 'e'] := by
  have hbridged : (CodeSet.ofRanges ([(97, 97), (99, 99), (101, 101), (100, 98)].map
      fun e ↦ .between e.1 e.2)).ranges = #[.ofChars 'a' 'e'] := by decide
  refine ⟨hbridged, Eq.trans ?_ hbridged⟩
  exact ranges_unique.2.1 _ _ fun e ↦ by simp only [List.mem_cons]; tauto

end Construction

/-! ### Complement -/

namespace CodeSet

variable {s t : CodeSet}

theorem Bounded.complement (h : s.Bounded) : s.complement.Bounded := fun _ hc ↦
  ⟨((mem_complement h).mp hc).1, ((mem_complement h).mp hc).2.1⟩

theorem Bounded.union (hs : s.Bounded) (ht : t.Bounded) : (s.union t).Bounded := fun c hc ↦
  (mem_union.mp hc).elim (hs c) (ht c)

theorem Bounded.complement_complement (h : s.Bounded) : s.complement.complement = s := by
  refine eq_of_mem_iff fun c ↦ ?_
  rw [mem_complement h.complement, mem_complement h]
  have := h c
  tauto

/-- The complement of a set of units is one again. It has exactly the units that the set does not
have, its own complement has the ranges that were there first, and the complement of a union has
what both complements have. -/
theorem complement_exact (hs : s.Bounded) (ht : t.Bounded) :
    Canonical s.complement.ends ∧ s.complement.Bounded ∧
      (∀ u : CodeUnit, u.code ∈ s.complement ↔ u.code ∉ s) ∧
      s.complement.complement.ranges = s.ranges ∧
      ∀ c, c ∈ (s.union t).complement ↔ c ∈ s.complement ∧ c ∈ t.complement := by
  refine ⟨canonical_ends _, hs.complement, fun u ↦ ?_,
    congrArg CodeSet.ranges hs.complement_complement, fun c ↦ ?_⟩
  · rw [mem_complement hs]
    have := u.code_within
    tauto
  · rw [mem_complement (hs.union ht), mem_complement hs, mem_complement ht, mem_union]
    tauto

/-- A hyphen is neither a word unit nor a blank. -/
theorem complement_exact_word : word.Bounded ∧ space.Bounded ∧
    word.complement.complement.ranges = word.ranges ∧ 0x2D ∈ (word.union space).complement := by
  have hword : word.Bounded := Builtin.word.denotes_set.bounded
  have hspace : space.Bounded := Builtin.space.denotes_set.bounded
  obtain ⟨-, -, -, hinvolution, hunion⟩ := complement_exact hword hspace
  exact ⟨hword, hspace, hinvolution, (hunion _).mpr ⟨by decide, by decide⟩⟩

end CodeSet

end ExtendedRegex
