import ExtendedRegex.Pattern.Token
import ExtendedRegex.Proofs.SearchTree
import Mathlib.Data.List.Basic

/-!
Which codes a set holds once ranges have been added to it, another set has been joined to it, or it
has been complemented. Sets that stand for properties of units are closed under all of these.
-/

set_option autoImplicit false
set_option relaxedAutoImplicit false

namespace ExtendedRegex

/-! ### Ranges -/

namespace CodeRange

variable {r s : CodeRange} {ranges : List CodeRange} {c : Int}

theorem lo_mem (r : CodeRange) : r.lo ∈ r := ⟨Int.le_refl _, r.lo_le_hi⟩

theorem hi_mem (r : CodeRange) : r.hi ∈ r := ⟨r.lo_le_hi, Int.le_refl _⟩

theorem mem_between {a b : Int} : c ∈ between a b ↔ a ≤ c ∧ c ≤ b ∨ b ≤ c ∧ c ≤ a := by
  have hmem : c ∈ between a b ↔ min a b ≤ c ∧ c ≤ max a b := Iff.rfl
  rw [hmem]
  omega

theorem mem_single {a : Int} : c ∈ single a ↔ c = a := by
  have hmem : c ∈ single a ↔ a ≤ c ∧ c ≤ a := Iff.rfl
  rw [hmem]
  omega

/-- Ranges that overlap or touch leave no code between them. -/
theorem mem_hull (h : ¬ s.Before r) (h' : ¬ r.Before s) : c ∈ r.hull s ↔ c ∈ r ∨ c ∈ s := by
  have hmem : ∀ t : CodeRange, c ∈ t ↔ t.lo ≤ c ∧ c ≤ t.hi := fun _ ↦ Iff.rfl
  have := r.lo_le_hi
  have := s.lo_le_hi
  rw [Before] at h h'
  simp only [hmem, hull]
  omega

theorem exists_mem_insertInto (r : CodeRange) (ranges : List CodeRange) (c : Int) :
    (∃ t ∈ r.insertInto ranges, c ∈ t) ↔ c ∈ r ∨ ∃ t ∈ ranges, c ∈ t := by
  induction ranges generalizing r with
  | nil => simp [insertInto]
  | cons s rest ih =>
    rw [insertInto]
    split
    · rw [List.exists_mem_cons_iff, List.exists_mem_cons_iff, ih]
      exact or_left_comm
    · split
      · rw [List.exists_mem_cons_iff]
      · next hs hr =>
        rw [ih, mem_hull hs hr, List.exists_mem_cons_iff]
        exact or_assoc

/-- The gaps above a code are what an ascending list that starts there leaves out. -/
theorem exists_mem_gaps {next : Int} (h : ranges.Pairwise Before)
    (hwithin : ∀ r ∈ ranges, next ≤ r.lo ∧ r.hi ≤ maxCode) :
    (∃ t ∈ gaps next ranges, c ∈ t) ↔
      next ≤ c ∧ c ≤ maxCode ∧ ¬ ∃ r ∈ ranges, c ∈ r := by
  have hmem : ∀ t : CodeRange, c ∈ t ↔ t.lo ≤ c ∧ c ≤ t.hi := fun _ ↦ Iff.rfl
  induction ranges generalizing next with
  | nil =>
    rw [gaps]
    split
    · simp [hmem]
    · have : ¬ (next ≤ c ∧ c ≤ maxCode) := by omega
      simpa using this
  | cons r rest ih =>
    obtain ⟨hr, hrest⟩ := List.pairwise_cons.mp h
    obtain ⟨hlo, hhi⟩ := hwithin r List.mem_cons_self
    have hle := r.lo_le_hi
    have hafter : ∀ s ∈ rest, r.hi + 1 ≤ s.lo ∧ s.hi ≤ maxCode := fun s hs ↦
      ⟨Int.le_of_lt (hr s hs), (hwithin s (List.mem_cons_of_mem _ hs)).2⟩
    -- Codes up to the end of the first range are in none of the others.
    have hbelow : c ≤ r.hi → ¬ ∃ s ∈ rest, c ∈ s := by
      rintro hc ⟨s, hs, hcs⟩
      have := (hafter s hs).1
      have := hcs.1
      omega
    have hgaps : (∃ t ∈ gaps (r.hi + 1) rest, c ∈ t) ↔
        r.hi + 1 ≤ c ∧ c ≤ maxCode ∧ ¬ ∃ s ∈ rest, c ∈ s := ih hrest hafter
    rw [List.exists_mem_cons_iff, hmem r, gaps]
    split
    · rw [List.exists_mem_cons_iff, hgaps, hmem]
      by_cases hc : c ≤ r.hi
      · have := hbelow hc
        simp only [this, or_false, not_false_eq_true, and_true]
        omega
      · have : ¬ c ≤ r.lo - 1 := by omega
        simp only [this, hc, and_false, false_or]
        refine and_congr_left fun _ ↦ ?_
        omega
    · rw [hgaps]
      by_cases hc : c ≤ r.hi
      · have := hbelow hc
        simp only [this, or_false, not_false_eq_true, and_true]
        omega
      · simp only [hc, and_false, false_or]
        refine and_congr_left fun _ ↦ ?_
        omega

end CodeRange

/-! ### Sets -/

namespace CodeSet

variable {s t : CodeSet} {c : Int}

theorem mem_iff : c ∈ s ↔ ∃ r ∈ s.ranges.toList, c ∈ r := by
  simp only [Array.mem_toList_iff]
  exact Iff.rfl

@[simp] theorem not_mem_empty : c ∉ CodeSet.empty := by
  simp [mem_iff, CodeSet.empty]

theorem mem_insert {r : CodeRange} : c ∈ s.insert r ↔ c ∈ r ∨ c ∈ s := by
  rw [mem_iff, mem_iff]
  exact r.exists_mem_insertInto s.ranges.toList c

theorem mem_foldl_insert {ranges : List CodeRange} :
    c ∈ ranges.foldl insert s ↔ c ∈ s ∨ ∃ r ∈ ranges, c ∈ r := by
  induction ranges generalizing s with
  | nil => simp
  | cons r rest ih =>
    rw [List.foldl_cons, ih, mem_insert, List.exists_mem_cons_iff, or_comm (a := c ∈ r), or_assoc]

theorem mem_ofRanges {ranges : List CodeRange} : c ∈ ofRanges ranges ↔ ∃ r ∈ ranges, c ∈ r := by
  simp [ofRanges, mem_foldl_insert]

theorem mem_union : c ∈ s.union t ↔ c ∈ s ∨ c ∈ t := by
  rw [union, ← Array.foldl_toList, mem_foldl_insert, ← mem_iff]

/-- Whether all codes of a set are codes of units. -/
def Bounded (s : CodeSet) : Prop := ∀ c ∈ s, minCode ≤ c ∧ c ≤ maxCode

/-- The complement of a set is taken among the codes of units. -/
theorem mem_complement (h : s.Bounded) :
    c ∈ s.complement ↔ minCode ≤ c ∧ c ≤ maxCode ∧ c ∉ s := by
  have hwithin : ∀ r ∈ s.ranges.toList, minCode ≤ r.lo ∧ r.hi ≤ maxCode := fun r hr ↦
    ⟨(h r.lo (mem_iff.mpr ⟨r, hr, r.lo_mem⟩)).1,
      (h r.hi (mem_iff.mpr ⟨r, hr, r.hi_mem⟩)).2⟩
  rw [mem_iff, mem_iff]
  exact CodeRange.exists_mem_gaps s.separated hwithin

theorem isEmpty_iff : s.isEmpty = true ↔ ∀ c, c ∉ s := by
  rw [isEmpty, Array.isEmpty_iff]
  constructor
  · intro h c
    simp [mem_iff, h]
  · intro h
    rw [← Array.toList_eq_nil_iff, List.eq_nil_iff_forall_not_mem]
    exact fun r hr ↦ h r.lo (mem_iff.mpr ⟨r, hr, r.lo_mem⟩)

/-- Two codes that are equal to one another cannot be in two separated ranges. -/
theorem single?_eq_some_iff : s.single? = some c ↔ ∀ d, d ∈ s ↔ d = c := by
  have hseparated := s.separated
  simp only [single?, mem_iff]
  generalize s.ranges.toList = ranges at hseparated
  constructor
  · intro h d
    split at h
    · next r =>
      split at h
      · next hends =>
        obtain rfl := Option.some.inj h
        have hmem : d ∈ r ↔ r.lo ≤ d ∧ d ≤ r.hi := Iff.rfl
        rw [List.exists_mem_cons_iff, hmem]
        simp only [List.not_mem_nil, false_and, exists_false, or_false]
        omega
      · cases h
    · cases h
  · intro h
    have hends : ∀ r ∈ ranges, r.lo = c ∧ r.hi = c := fun r hr ↦
      ⟨(h _).mp ⟨r, hr, r.lo_mem⟩, (h _).mp ⟨r, hr, r.hi_mem⟩⟩
    match ranges, hends, hseparated with
    | [], _, _ =>
      obtain ⟨r, hr, -⟩ := (h c).mpr rfl
      cases hr
    | [r], hends, _ =>
      obtain ⟨hlo, hhi⟩ := hends r List.mem_cons_self
      simp [hlo, hhi]
    | r :: r' :: rest, hends, hseparated =>
      have hbefore : r.hi + 1 < r'.lo :=
        (List.pairwise_cons.mp hseparated).1 r' List.mem_cons_self
      have := (hends r List.mem_cons_self).2
      have := (hends r' (List.mem_cons_of_mem _ List.mem_cons_self)).1
      omega

end CodeSet

/-! ### Sets of units -/

namespace CodeUnit

variable {u v a b : CodeUnit}

/-- Whether a unit is in the range with the given ends, in either order. -/
def IsBetween (u a b : CodeUnit) : Prop := a ≤ u ∧ u ≤ b ∨ b ≤ u ∧ u ≤ a

instance (u a b : CodeUnit) : Decidable (u.IsBetween a b) :=
  inferInstanceAs (Decidable (a ≤ u ∧ u ≤ b ∨ b ≤ u ∧ u ≤ a))

theorem isBetween_iff (h : a ≤ b) : u.IsBetween a b ↔ a ≤ u ∧ u ≤ b :=
  ⟨fun hu ↦ hu.elim id fun ⟨hb, ha⟩ ↦ ⟨UInt16.le_trans h hb, UInt16.le_trans ha h⟩, Or.inl⟩

@[simp] theorem isBetween_self : u.IsBetween a a ↔ u = a :=
  ⟨fun hu ↦ hu.elim (fun ⟨ha, hu⟩ ↦ UInt16.le_antisymm hu ha)
    fun ⟨ha, hu⟩ ↦ UInt16.le_antisymm hu ha,
    fun h ↦ h ▸ Or.inl ⟨UInt16.le_refl _, UInt16.le_refl _⟩⟩

theorem code_inj : u.code = v.code ↔ u = v := by
  rw [code, code, Int.ofNat_inj, UInt16.toNat_inj]

theorem code_le_iff : u.code ≤ v.code ↔ u ≤ v := by
  rw [code, code, Int.ofNat_le, UInt16.le_iff_toNat_le]

theorem code_within (u : CodeUnit) : minCode ≤ u.code ∧ u.code ≤ maxCode := by
  have := u.toNat_lt
  simp only [code, minCode, maxCode]
  omega

theorem code_mem_between : u.code ∈ CodeRange.between a.code b.code ↔ u.IsBetween a b := by
  rw [CodeRange.mem_between]
  simp only [code_le_iff]
  exact Iff.rfl

theorem exists_code_eq {c : Int} (h : minCode ≤ c) (h' : c ≤ maxCode) :
    ∃ u : CodeUnit, u.code = c := by
  simp only [minCode, maxCode] at h h'
  refine ⟨c.toNat.toUInt16, ?_⟩
  have hsize : c.toNat % 2 ^ 16 = c.toNat := Nat.mod_eq_of_lt (by omega)
  rw [code, UInt16.toNat_ofNat', hsize]
  omega

@[simp] theorem toUInt16_code (u : CodeUnit) : u.code.toNat.toUInt16 = u := by
  simp [code]

end CodeUnit

namespace CodeSet

/-- A set that holds the codes of the units with a property, and no other codes. -/
def Denotes (s : CodeSet) (has : CodeUnit → Bool) : Prop :=
  ∀ c, c ∈ s ↔ ∃ u : CodeUnit, u.code = c ∧ has u = true

namespace Denotes

variable {s t : CodeSet} {f g : CodeUnit → Bool} {u : CodeUnit}

theorem code_mem_iff (h : s.Denotes f) (u : CodeUnit) : u.code ∈ s ↔ f u = true := by
  rw [h]
  constructor
  · rintro ⟨v, hv, hf⟩
    rwa [← CodeUnit.code_inj.mp hv]
  · exact fun hf ↦ ⟨u, rfl, hf⟩

/-- Two descriptions of a set agree on all units. -/
theorem congr (h : s.Denotes f) (hfg : ∀ u, f u = g u) : s.Denotes g := by
  obtain rfl : f = g := funext hfg
  exact h

protected theorem empty : CodeSet.empty.Denotes fun _ ↦ false := fun c ↦ by simp

theorem union (hs : s.Denotes f) (ht : t.Denotes g) :
    (s.union t).Denotes fun u ↦ g u || f u := fun c ↦ by
  rw [mem_union, hs, ht, ← exists_or, exists_congr]
  intro u
  rw [Bool.or_eq_true, and_or_left, or_comm]

/-- A range adds the units between its ends. -/
theorem insert_between (h : s.Denotes f) (a b : CodeUnit) :
    (s.insert (.between a.code b.code)).Denotes fun u ↦ decide (u.IsBetween a b) || f u :=
  fun c ↦ by
  rw [mem_insert, h]
  constructor
  · rintro (hc | ⟨u, rfl, hu⟩)
    · have hwithin : minCode ≤ c ∧ c ≤ maxCode := by
        have := a.code_within
        have := b.code_within
        have := CodeRange.mem_between.mp hc
        omega
      obtain ⟨u, rfl⟩ := CodeUnit.exists_code_eq hwithin.1 hwithin.2
      exact ⟨u, rfl, by simp [CodeUnit.code_mem_between.mp hc]⟩
    · exact ⟨u, rfl, by simp [hu]⟩
  · rintro ⟨u, rfl, hu⟩
    rcases Bool.or_eq_true_iff.mp hu with hu | hu
    · exact Or.inl (CodeUnit.code_mem_between.mpr (of_decide_eq_true hu))
    · exact Or.inr ⟨u, rfl, hu⟩

theorem insert_single (h : s.Denotes f) (v : CodeUnit) :
    (s.insert (.single v.code)).Denotes fun u ↦ decide (u = v) || f u := fun c ↦ by
  rw [mem_insert, CodeRange.mem_single, h]
  constructor
  · rintro (rfl | ⟨u, rfl, hu⟩)
    · exact ⟨v, rfl, by simp⟩
    · exact ⟨u, rfl, by simp [hu]⟩
  · rintro ⟨u, rfl, hu⟩
    rcases Bool.or_eq_true_iff.mp hu with hu | hu
    · exact Or.inl (congrArg CodeUnit.code (of_decide_eq_true hu))
    · exact Or.inr ⟨u, rfl, hu⟩

theorem bounded (h : s.Denotes f) : s.Bounded := by
  intro c hc
  obtain ⟨u, rfl, -⟩ := (h c).mp hc
  exact u.code_within

theorem complement (h : s.Denotes f) : s.complement.Denotes fun u ↦ !f u := fun c ↦ by
  rw [mem_complement h.bounded]
  constructor
  · rintro ⟨hmin, hmax, hc⟩
    obtain ⟨u, rfl⟩ := CodeUnit.exists_code_eq hmin hmax
    rw [h.code_mem_iff, Bool.not_eq_true] at hc
    exact ⟨u, rfl, by simp [hc]⟩
  · rintro ⟨u, rfl, hu⟩
    rw [h.code_mem_iff, Bool.not_eq_true, ← Bool.not_eq_true']
    exact ⟨u.code_within.1, u.code_within.2, hu⟩

theorem isEmpty_iff (h : s.Denotes f) : s.isEmpty = true ↔ ∀ u, f u = false := by
  rw [CodeSet.isEmpty_iff]
  constructor
  · exact fun hs u ↦ Bool.eq_false_iff.mpr fun hu ↦ hs _ ((h.code_mem_iff u).mpr hu)
  · intro hf c hc
    obtain ⟨u, -, hu⟩ := (h c).mp hc
    exact Bool.eq_false_iff.mp (hf u) hu

/-- The single code of a set is the code of the only unit. -/
theorem single?_eq_some_iff (h : s.Denotes f) {c : Int} :
    s.single? = some c ↔ ∃ u : CodeUnit, u.code = c ∧ ∀ v, f v = decide (v = u) := by
  rw [CodeSet.single?_eq_some_iff]
  constructor
  · intro hs
    obtain ⟨u, rfl, -⟩ := (h c).mp ((hs c).mpr rfl)
    refine ⟨u, rfl, fun v ↦ ?_⟩
    rw [Bool.eq_iff_iff, ← h.code_mem_iff, hs, CodeUnit.code_inj, decide_eq_true_iff]
  · rintro ⟨u, rfl, hf⟩ d
    rw [h]
    simp only [hf, decide_eq_true_eq, exists_eq_right]
    exact eq_comm

end Denotes

end CodeSet

/-! ### The sets with names -/

/-- The units of a builtin class. -/
def Builtin.has : Builtin → CodeUnit → Bool
  | digit, u => '0' ≤ u ∧ u ≤ '9'
  | word, u => 'A' ≤ u ∧ u ≤ 'Z' ∨ 'a' ≤ u ∧ u ≤ 'z' ∨ '0' ≤ u ∧ u ≤ '9' ∨ u = '_'
  | space, u => u = ' ' ∨ u = '\t' ∨ u = '\r' ∨ u = '\n' ∨ u = '\x0C'

/-- Ranges that are added one after another. -/
theorem CodeSet.Denotes.foldl_insert {s : CodeSet} {f : CodeUnit → Bool} (h : s.Denotes f)
    (ends : List (CodeUnit × CodeUnit)) :
    ((ends.map fun e ↦ .between e.1.code e.2.code).foldl CodeSet.insert s).Denotes fun u ↦
      f u || ends.any fun e ↦ u.IsBetween e.1 e.2 := by
  induction ends generalizing s f with
  | nil => exact h.congr fun u ↦ (Bool.or_false _).symm
  | cons e ends ih =>
    refine (ih (h.insert_between e.1 e.2)).congr fun u ↦ ?_
    rw [List.any_cons, ← Bool.or_assoc, Bool.or_comm (f u)]

theorem Builtin.denotes_set (b : Builtin) : b.set.Denotes b.has := by
  have hends := CodeSet.Denotes.empty.foldl_insert
  have hdigit : ∀ u : CodeUnit, u.IsBetween '0' '9' ↔ '0' ≤ u ∧ u ≤ '9' :=
    fun u ↦ CodeUnit.isBetween_iff (by decide)
  cases b with
  | digit =>
    refine (hends [('0', '9')]).congr fun u ↦ ?_
    simp [has, hdigit]
  | word =>
    refine (hends [('A', 'Z'), ('a', 'z'), ('0', '9'), ('_', '_')]).congr fun u ↦ ?_
    have hupper : u.IsBetween 'A' 'Z' ↔ _ := CodeUnit.isBetween_iff (by decide)
    have hlower : u.IsBetween 'a' 'z' ↔ _ := CodeUnit.isBetween_iff (by decide)
    simp [has, hdigit, hupper, hlower]
  | space =>
    refine (hends [(' ', ' '), ('\t', '\t'), ('\r', '\r'), ('\n', '\n'),
      ('\x0C', '\x0C')]).congr fun u ↦ ?_
    simp [has]

/-- No class is empty, and none holds all units. -/
theorem Builtin.exists_has (b : Builtin) (negated : Bool) : ∃ u, (b.has u != negated) = true := by
  cases negated with
  | true => exact ⟨'-', by cases b <;> decide⟩
  | false =>
    cases b with
    | digit | word => exact ⟨'0', by decide⟩
    | space => exact ⟨' ', by decide⟩

end ExtendedRegex
