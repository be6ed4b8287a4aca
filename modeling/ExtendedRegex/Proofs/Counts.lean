import ExtendedRegex.Proofs.Numerals
import ExtendedRegex.Proofs.Sizes
import ExtendedRegex.Proofs.Written

/-!
The counts of a repetition. Their text is read back as the bound that they were written for, and the
bound makes the copies that the repetition stands for.
-/

set_option autoImplicit false
set_option relaxedAutoImplicit false

namespace ExtendedRegex

namespace Written

/-- Between braces, digits and commas stand for themselves. -/
def Plain (u : CodeUnit) : Prop := u.digit?.isSome ∨ u = (',' : CodeUnit)

theorem Plain.lookup_eq_none {u : CodeUnit} (h : Plain u) :
    Mode.bound.special.lookup u = none ∧ u ≠ ('\\' : CodeUnit) := by
  have hne : ∀ {v : CodeUnit}, v.digit? = none → v ≠ (',' : CodeUnit) → u ≠ v := by
    rintro v hdigit hcomma rfl
    rcases h with h | h
    · simp [hdigit] at h
    · exact hcomma h
  have hbrace : u ≠ ('}' : CodeUnit) := hne (by decide) (by decide)
  refine ⟨?_, hne (by decide) (by decide)⟩
  rw [Mode.special, List.lookup_cons, beq_eq_false_iff_ne.mpr hbrace]
  rfl

theorem plain_of_mem_text {b : BoundEnds Numeral} {u : CodeUnit} (h : u ∈ b.text) : Plain u := by
  have hdigit : ∀ {d : Numeral}, u ∈ d.text → Plain u :=
    fun h ↦ Or.inl (Numeral.isSome_digit?_of_mem_text h)
  cases b with
  | exactly n => exact hdigit h
  | atLeast low =>
    rcases List.mem_append.mp h with h | h
    · exact hdigit h
    · exact Or.inr (List.mem_singleton.mp h)
  | atMost high =>
    rcases List.mem_cons.mp h with h | h
    · exact Or.inr h
    · exact hdigit h
  | between low high =>
    rcases List.mem_append.mp h with h | h
    · exact hdigit h
    · rcases List.mem_cons.mp h with h | h
      · exact Or.inr h
      · exact hdigit h

namespace Repetition

/-- The bound that a repetition is read as. -/
def bound : Repetition → Bound
  | exactly n _ => ⟨.exact n, some (.exact n)⟩
  | atLeast low _ => ⟨.exact low, none⟩
  | atMost high _ => ⟨.exact 0, some (.exact high)⟩
  | between low high _ _ => ⟨.exact low, some (.exact high)⟩

def ends : Repetition → BoundEnds Nat
  | exactly n _ => .exactly n
  | atLeast low _ => .atLeast low
  | atMost high _ => .atMost high
  | between low high _ _ => .between low high

theorem counts_eq (r : Repetition) : r.counts = (r.ends.map Numeral.ofNat).text := by
  cases r <;> rfl

theorem bound_eq (r : Repetition) : r.bound = (r.ends.map Count.exact).bound := by
  cases r <;> rfl

theorem le_of_mem_ends {r : Repetition} {n : Nat} (h : n ∈ r.ends.toList) :
    n ≤ maxRepetition := by
  cases r with
  | exactly m hm | atLeast m hm | atMost m hm =>
    rwa [List.mem_singleton.mp h]
  | between low high hle hhigh =>
    rcases List.mem_pair.mp h with rfl | rfl
    · exact Nat.le_trans hle hhigh
    · exact hhigh

theorem not_reversed_ends (r : Repetition) : ¬ r.ends.Reversed := by
  cases r with
  | exactly | atLeast | atMost => exact id
  | between low high h => exact Nat.not_lt.mpr h

theorem counts_bound (r : Repetition) (opening closing : Nat) :
    Bound.counts opening closing r.counts = .ok (r.ends.map Count.exact).bound := by
  have hvalued : ∀ d ∈ (r.ends.map Numeral.ofNat).toList, d.Valued := by
    rw [BoundEnds.toList_map]
    rintro d hd
    obtain ⟨n, hn, rfl⟩ := List.mem_map.mp hd
    exact Numeral.valued_ofNat (le_of_mem_ends hn)
  rw [r.counts_eq, BoundEnds.counts_valued hvalued, BoundEnds.map_value_ofNat]

theorem read_bound (r : Repetition) (opening closing : Nat) :
    Bound.read opening closing r.counts = .ok r.bound := by
  have hsmall : ¬ ∃ n ∈ r.ends.toList, maxRepetition < n :=
    fun ⟨_, hn, hlarge⟩ ↦ Nat.not_lt.mpr (le_of_mem_ends hn) hlarge
  rw [BoundEnds.read_eq (r.counts_bound opening closing), if_neg hsmall, if_neg r.not_reversed_ends,
    r.bound_eq]

theorem copies_bound (r : Repetition) (e : Regex) : r.bound.copies e = r.copies e := by
  cases r with
  | exactly n => simp [bound, Bound.copies, copies]
  | atLeast low => cases low <;> rfl
  | atMost high => simp [bound, Bound.copies, copies]
  | between low high => simp [bound, Bound.copies, copies]

theorem charge_bound (r : Repetition) : r.bound.copies? = some r.charge := by
  cases r with
  | exactly n | atLeast low => simp [bound, Bound.copies?, charge]
  | atMost high => simp [bound, Bound.copies?, charge]
  | between low high h => simp [bound, Bound.copies?, charge, Nat.max_eq_right h]

end Repetition

end Written

end ExtendedRegex
