import ExtendedRegex.Proofs.Reading

/-!
Patterns that go on. What has been read whole is read in the same way at the beginning of a longer
pattern, unless its last token would take what follows for a modifier.
-/

set_option autoImplicit false
set_option relaxedAutoImplicit false

namespace ExtendedRegex

/-- Whether a text does not start with a unit that changes the meaning of a token in front. -/
def Text.Unmodifying (rest : Text) : Prop :=
  rest[0]? ≠ some ('?' : CodeUnit) ∧ rest[0]? ≠ some ('^' : CodeUnit)

variable {x rest : Text}

theorem Text.lt_size_append {offset : Nat} (rest : Text) (h : offset < x.size) :
    offset < (x ++ rest).size := by
  rw [Array.size_append]
  exact Nat.lt_add_right _ h

namespace Token

variable {mode : Mode} {offset : Nat} {t : Token}

theorem head_ne_of_modifier {kind : Kind} {u : CodeUnit} (hkind : kind.modifier? = some u)
    (hrest : rest.Unmodifying) : rest[0]? ≠ some u := by
  cases kind with
  | quantifier =>
    cases hkind
    exact hrest.1
  | openBracket =>
    cases hkind
    exact hrest.2
  | endOfPattern | unit | any | bar | openGroup | closeGroup | closeBracket | openBound | closeBound
  | startAnchor | endAnchor | builtin => cases hkind

theorem stop_le_of_next (h : offset < x.size) (ht : next x mode offset = .ok t) :
    t.stop ≤ x.size := by
  cases standsAt_of_next ht with
  | endOfPattern => exact Nat.le_of_lt h
  | escaped _ hv | builtin _ hv => exact (Array.getElem?_eq_some_iff.mp hv).1
  | special | unit => exact h

theorem next_append (h : offset < x.size) (ht : next x mode offset = .ok t) :
    next (x ++ rest) mode offset = .ok t := by
  rw [← ht, next, next, Array.getElem?_append_left h]
  cases hu : x[offset]? with
  | none => rfl
  | some u =>
    by_cases hslash : u = '\\'
    · cases hv : x[offset + 1]? with
      | none =>
        -- The backslash would be the last unit, with nothing to escape.
        rw [next, hu] at ht
        dsimp only at ht
        rw [if_pos hslash, hv] at ht
        cases ht
      | some v =>
        have hlast : offset + 1 < x.size := (Array.getElem?_eq_some_iff.mp hv).1
        rw [Array.getElem?_append_left hlast, hv]
    · simp only [if_neg hslash]

theorem modified_append (h : t.stop ≤ x.size) (hrest : rest.Unmodifying) :
    t.modified (x ++ rest) = t.modified x := by
  cases hkind : t.kind.modifier? with
  | none => rw [modified_of_none hkind, modified_of_none hkind]
  | some u =>
    rw [modified_eq rfl hkind, modified_eq rfl hkind, List.head?_drop, List.head?_drop,
      Array.getElem?_toList, Array.getElem?_toList]
    rcases Nat.lt_or_eq_of_le h with hlt | heq
    · rw [Array.getElem?_append_left hlt]
    · rw [heq, Array.getElem?_append_right (Nat.le_refl x.size), Nat.sub_self,
        Array.getElem?_eq_none (Nat.le_refl x.size)]
      rw [beq_eq_false_iff_ne.mpr (head_ne_of_modifier hkind hrest)]
      rfl

theorem behind_le_size (h : t.stop ≤ x.size) : t.behind x ≤ x.size := by
  rcases Nat.lt_or_eq_of_le h with hlt | heq
  · rw [behind]
    split <;> omega
  · have hmodified : t.modified x = false := by
      cases hkind : t.kind.modifier? with
      | none => exact modified_of_none hkind
      | some u =>
        rw [modified_eq rfl hkind, heq, ← Array.length_toList, List.drop_length]
        rfl
    rw [behind, hmodified]
    exact h

end Token

namespace ReadState

variable {s s' : ReadState} {sharing sharing' : Sharing}

theorem step_append (h : s.offset < x.size) (hrest : rest.Unmodifying)
    (hs : s.step x sharing = .ok (s', sharing')) :
    s.step (x ++ rest) sharing = .ok (s', sharing') ∧ s'.offset ≤ x.size := by
  obtain ⟨t, s₁, ht, hreact, rfl⟩ := exists_of_step hs
  have hstop := Token.stop_le_of_next h ht
  have hmodified := Token.modified_append hstop hrest
  refine ⟨?_, Token.behind_le_size hstop⟩
  simp only [step, Token.next_append h ht, hmodified, hreact, bind, Except.bind, pure, Except.pure,
    Token.behind]

/-- Where a text has been read whole, a longer one is read on. -/
theorem run_append (h : s.offset ≤ x.size) (hrest : rest.Unmodifying)
    (hrun : run x s sharing = .ok (s', sharing')) :
    s'.offset = x.size ∧ run (x ++ rest) s sharing = run (x ++ rest) s' sharing' := by
  fun_induction run x s sharing with
  | case1 => cases hrun
  | case2 s sharing hoffset s₁ sharing₁ hstep _ ih =>
    obtain ⟨hstep', hbound⟩ := step_append hoffset hrest hstep
    obtain ⟨hend, hrun'⟩ := ih hbound hrun
    exact ⟨hend, (run_of_step (Text.lt_size_append rest hoffset) hstep').trans hrun'⟩
  | case3 s sharing hoffset =>
    cases hrun
    exact ⟨Nat.le_antisymm h (Nat.not_lt.mp hoffset), rfl⟩

end ReadState

end ExtendedRegex
