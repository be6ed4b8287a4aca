/-!
Closed intervals of code points with ordered bounds, and lists of intervals kept in ascending order
with a gap of at least one code between neighbours. Inserting an interval and taking the gaps below
a largest code both keep such lists in that form.
-/

set_option autoImplicit false
set_option relaxedAutoImplicit false

namespace ExtendedRegex

def minCode : Int := 0

def maxCode : Int := 0xFFFF

structure CodeRange where
  lo : Int
  hi : Int
  lo_le_hi : lo ≤ hi
deriving DecidableEq, Repr

namespace CodeRange

/-- The interval with the given ends, in either order. -/
def between (a b : Int) : CodeRange := ⟨min a b, max a b, by omega⟩

def single (c : Int) : CodeRange := ⟨c, c, Int.le_refl c⟩

instance : Membership Int CodeRange := ⟨fun r c ↦ r.lo ≤ c ∧ c ≤ r.hi⟩

instance (c : Int) (r : CodeRange) : Decidable (c ∈ r) :=
  inferInstanceAs (Decidable (r.lo ≤ c ∧ c ≤ r.hi))

/-- Every code of the first interval is below the second one, and some code lies between them. -/
def Before (r s : CodeRange) : Prop := r.hi + 1 < s.lo

instance (r s : CodeRange) : Decidable (r.Before s) :=
  inferInstanceAs (Decidable (r.hi + 1 < s.lo))

def hull (r s : CodeRange) : CodeRange :=
  ⟨min r.lo s.lo, max r.hi s.hi, by have := r.lo_le_hi; omega⟩

/-- Adds an interval to an ascending list, merged with every interval it overlaps or touches. -/
def insertInto (r : CodeRange) : List CodeRange → List CodeRange
  | [] => [r]
  | s :: rest =>
    if s.Before r then s :: r.insertInto rest
    else if r.Before s then r :: s :: rest
    else (r.hull s).insertInto rest

theorem before_of_mem_insertInto {r s t : CodeRange} {ranges : List CodeRange} (hr : s.Before r)
    (hall : ∀ u ∈ ranges, s.Before u) (ht : t ∈ r.insertInto ranges) : s.Before t := by
  induction ranges generalizing r with
  | nil => simp only [insertInto, List.mem_singleton] at ht; exact ht ▸ hr
  | cons u rest ih =>
    have hu := hall u (by simp)
    have hrest : ∀ v ∈ rest, s.Before v := fun v hv ↦ hall v (by simp [hv])
    simp only [insertInto] at ht
    split at ht
    · rcases List.mem_cons.mp ht with rfl | ht
      · exact hu
      · exact ih hr hrest ht
    · split at ht
      · rcases List.mem_cons.mp ht with rfl | ht
        · exact hr
        · exact hall t ht
      · refine ih ?_ hrest ht
        simp only [Before, hull] at *
        omega

theorem insertInto_pairwise (r : CodeRange) {ranges : List CodeRange}
    (h : ranges.Pairwise Before) : (r.insertInto ranges).Pairwise Before := by
  induction ranges generalizing r with
  | nil => simp [insertInto]
  | cons s rest ih =>
    obtain ⟨hs, hrest⟩ := List.pairwise_cons.mp h
    simp only [insertInto]
    split
    · next hsr =>
      exact List.pairwise_cons.mpr
        ⟨fun t ht ↦ before_of_mem_insertInto hsr hs ht, ih r hrest⟩
    · split
      · next hrs =>
        refine List.pairwise_cons.mpr ⟨fun t ht ↦ ?_, h⟩
        rcases List.mem_cons.mp ht with rfl | ht
        · exact hrs
        · have hst := hs t ht
          have := s.lo_le_hi
          simp only [Before] at *
          omega
      · exact ih _ hrest

/-- The intervals between `next` and the largest code that an ascending list leaves out. -/
def gaps (next : Int) : List CodeRange → List CodeRange
  | [] => if h : next ≤ maxCode then [⟨next, maxCode, h⟩] else []
  | r :: rest =>
    if h : next < r.lo then ⟨next, r.lo - 1, by omega⟩ :: gaps (r.hi + 1) rest
    else gaps (r.hi + 1) rest

theorem le_of_mem_gaps {next : Int} {ranges : List CodeRange} {t : CodeRange}
    (hall : ∀ r ∈ ranges, next < r.lo) (h : ranges.Pairwise Before) (ht : t ∈ gaps next ranges) :
    next ≤ t.lo := by
  induction ranges generalizing next with
  | nil =>
    simp only [gaps] at ht
    split at ht
    · simp only [List.mem_singleton] at ht
      subst ht
      exact Int.le_refl _
    · simp at ht
  | cons r rest ih =>
    obtain ⟨hr, hrest⟩ := List.pairwise_cons.mp h
    have hlo := hall r (by simp)
    have hle := r.lo_le_hi
    simp only [gaps, hlo, ↓reduceDIte] at ht
    rcases List.mem_cons.mp ht with rfl | ht
    · exact Int.le_refl _
    · have := ih (fun s hs ↦ hr s hs) hrest ht
      omega

theorem gaps_pairwise (next : Int) {ranges : List CodeRange} (h : ranges.Pairwise Before) :
    (gaps next ranges).Pairwise Before := by
  induction ranges generalizing next with
  | nil =>
    simp only [gaps]
    split <;> simp
  | cons r rest ih =>
    obtain ⟨hr, hrest⟩ := List.pairwise_cons.mp h
    simp only [gaps]
    split
    · refine List.pairwise_cons.mpr ⟨fun t ht ↦ ?_, ih _ hrest⟩
      have := le_of_mem_gaps (fun s hs ↦ hr s hs) hrest ht
      have := r.lo_le_hi
      simp only [Before]
      omega
    · exact ih _ hrest

end CodeRange

end ExtendedRegex
