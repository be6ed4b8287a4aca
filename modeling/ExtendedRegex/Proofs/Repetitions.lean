import ExtendedRegex.Proofs.RoundTrip
import ExtendedRegex.Proofs.Spans

/-!
What repetitions match. The copies that a bound is expanded to, however many of them are optional,
match between two positions exactly if some number of matches of the operand that the bound allows
leads from one position to the other.
-/

set_option autoImplicit false
set_option relaxedAutoImplicit false

namespace ExtendedRegex

/-! ### Numbers of rounds -/

/-- Whether so many steps of a relation lead from one place to another. -/
def Repeated {α : Type} (R : α → α → Prop) : Nat → α → α → Prop
  | 0 => Eq
  | k + 1 => Relation.Comp R (Repeated R k)

section Rounds

variable {α : Type} {R : α → α → Prop} {j k : Nat} {a b c : α}

theorem Repeated.trans (h : Repeated R j a b) (h' : Repeated R k b c) :
    Repeated R (j + k) a c := by
  induction j generalizing a with
  | zero =>
    obtain rfl : a = b := h
    rwa [Nat.zero_add]
  | succ j ih =>
    obtain ⟨m, hstep, hrest⟩ := h
    rw [Nat.succ_add]
    exact ⟨m, hstep, ih hrest⟩

theorem Repeated.exists_of_add (h : Repeated R (j + k) a c) :
    ∃ b, Repeated R j a b ∧ Repeated R k b c := by
  induction j generalizing a with
  | zero =>
    rw [Nat.zero_add] at h
    exact ⟨a, rfl, h⟩
  | succ j ih =>
    rw [Nat.succ_add] at h
    obtain ⟨m, hstep, hrest⟩ := h
    obtain ⟨b, hfirst, hsecond⟩ := ih hrest
    exact ⟨b, ⟨m, hstep, hfirst⟩, hsecond⟩

theorem reflTransGen_iff_repeated : Relation.ReflTransGen R a b ↔ ∃ k, Repeated R k a b := by
  constructor
  · intro h
    induction h using Relation.ReflTransGen.head_induction_on with
    | refl => exact ⟨0, rfl⟩
    | head hstep _ ih =>
      obtain ⟨k, hrest⟩ := ih
      exact ⟨k + 1, _, hstep, hrest⟩
  · rintro ⟨k, h⟩
    induction k generalizing a with
    | zero =>
      obtain rfl : a = b := h
      exact .refl
    | succ k ih =>
      obtain ⟨m, hstep, hrest⟩ := h
      exact .head hstep (ih hrest)

theorem transGen_iff_repeated : Relation.TransGen R a b ↔ ∃ k, Repeated R (k + 1) a b := by
  rw [Relation.TransGen.head'_iff]
  constructor
  · rintro ⟨m, hstep, hrest⟩
    obtain ⟨k, hrest⟩ := reflTransGen_iff_repeated.mp hrest
    exact ⟨k, m, hstep, hrest⟩
  · rintro ⟨k, m, hstep, hrest⟩
    exact ⟨m, hstep, reflTransGen_iff_repeated.mpr ⟨k, hrest⟩⟩

end Rounds

/-! ### Copies -/

namespace Regex

variable {subject : Text} {anchor : Int} {e : Regex} {p q : Nat}

variable (subject anchor) in
/-- Matches of trees one after another. -/
def SpansAll : List Regex → Nat → Nat → Prop
  | [] => Eq
  | e :: rest => Relation.Comp (e.Spans subject anchor) (SpansAll rest)

theorem spansAll_append {l l' : List Regex} :
    SpansAll subject anchor (l ++ l') p q ↔
      ∃ m, SpansAll subject anchor l p m ∧ SpansAll subject anchor l' m q := by
  induction l generalizing p with
  | nil => exact ⟨fun h ↦ ⟨p, rfl, h⟩, fun ⟨_, heq, h⟩ ↦ heq ▸ h⟩
  | cons e l ih =>
    constructor
    · rintro ⟨m, hspans, hrest⟩
      obtain ⟨m', hfirst, hsecond⟩ := ih.mp hrest
      exact ⟨m', ⟨m, hspans, hfirst⟩, hsecond⟩
    · rintro ⟨m', ⟨m, hspans, hfirst⟩, hsecond⟩
      exact ⟨m, hspans, ih.mpr ⟨m', hfirst, hsecond⟩⟩

theorem spansAll_singleton :
    SpansAll subject anchor [e] p q ↔ e.Spans subject anchor p q :=
  ⟨fun ⟨_, h, heq⟩ ↦ heq ▸ h, fun h ↦ ⟨q, h, rfl⟩⟩

/-- The nesting of a sequence does not matter. -/
theorem spans_sequence {l : List Regex} :
    (sequence l).Spans subject anchor p q ↔ SpansAll subject anchor l p q := by
  cases l with
  | nil => exact Iff.rfl
  | cons e rest =>
    rw [sequence]
    induction rest generalizing e with
    | nil => exact spansAll_singleton.symm
    | cons f rest ih =>
      refine (ih (e := e.cat f)).trans ?_
      constructor
      · rintro ⟨m, ⟨m', hfirst, hsecond⟩, hrest⟩
        exact ⟨m', hfirst, m, hsecond, hrest⟩
      · rintro ⟨m', hfirst, m, hsecond, hrest⟩
        exact ⟨m, ⟨m', hfirst, hsecond⟩, hrest⟩

theorem spansAll_replicate (n : Nat) :
    SpansAll subject anchor (List.replicate n e) = Repeated (e.Spans subject anchor) n := by
  induction n with
  | zero => rfl
  | succ n ih => rw [List.replicate_succ, SpansAll, ih, Repeated]

/-- Of optional copies any number can be taken, also behind some that are left out. -/
theorem spansAll_replicate_opt (greedy : Bool) (n : Nat) :
    SpansAll subject anchor (List.replicate n (.opt e greedy)) p q ↔
      ∃ k ≤ n, Repeated (e.Spans subject anchor) k p q := by
  induction n generalizing p with
  | zero =>
    constructor
    · exact fun h ↦ ⟨0, Nat.le_refl 0, h⟩
    · rintro ⟨k, hk, h⟩
      obtain rfl := Nat.le_zero.mp hk
      exact h
  | succ n ih =>
    rw [List.replicate_succ]
    constructor
    · rintro ⟨m, rfl | htaken, hrest⟩
      · obtain ⟨k, hk, h⟩ := ih.mp hrest
        exact ⟨k, Nat.le_succ_of_le hk, h⟩
      · obtain ⟨k, hk, h⟩ := ih.mp hrest
        exact ⟨k + 1, Nat.succ_le_succ hk, m, htaken, h⟩
    · rintro ⟨k, hk, h⟩
      cases k with
      | zero => exact ⟨p, Or.inl rfl, ih.mpr ⟨0, Nat.zero_le n, h⟩⟩
      | succ k =>
        obtain ⟨m, htaken, hrest⟩ := h
        exact ⟨m, Or.inr htaken, ih.mpr ⟨k, Nat.le_of_succ_le_succ hk, hrest⟩⟩

end Regex

/-! ### Repetitions -/

namespace Written

namespace Repetition

/-- The numbers of rounds that a repetition stands for. -/
def Allows : Repetition → Nat → Prop
  | exactly n _, k => k = n
  | atLeast low _, k => low ≤ k
  | atMost high _, k => k ≤ high
  | between low high _ _, k => low ≤ k ∧ k ≤ high

variable {subject : Text} {anchor : Int} {e : Regex} {p q : Nat}

theorem spans_copies (r : Repetition) :
    (Regex.sequence (r.copies e)).Spans subject anchor p q ↔
      ∃ k, r.Allows k ∧ Repeated (e.Spans subject anchor) k p q := by
  rw [Regex.spans_sequence]
  cases r with
  | exactly n h =>
    rw [copies, Regex.spansAll_replicate]
    constructor
    · exact fun hspans ↦ ⟨n, rfl, hspans⟩
    · rintro ⟨k, hk, hspans⟩
      exact hk ▸ hspans
  | atLeast low h =>
    cases low with
    | zero =>
      rw [copies, Regex.spansAll_singleton, Regex.Spans, reflTransGen_iff_repeated]
      constructor
      · rintro ⟨k, hspans⟩
        exact ⟨k, Nat.zero_le k, hspans⟩
      · rintro ⟨k, -, hspans⟩
        exact ⟨k, hspans⟩
    | succ n =>
      rw [copies, Regex.spansAll_append, Regex.spansAll_replicate]
      simp only [Regex.spansAll_singleton, Regex.Spans, transGen_iff_repeated]
      constructor
      · rintro ⟨m, hfirst, k, hlast⟩
        exact ⟨n + (k + 1), Nat.add_le_add_left (Nat.le_add_left 1 k) n, hfirst.trans hlast⟩
      · rintro ⟨k, hk, hspans⟩
        obtain ⟨k, rfl⟩ := Nat.exists_eq_add_of_le hk
        rw [Nat.add_assoc, Nat.add_comm 1] at hspans
        obtain ⟨m, hfirst, hlast⟩ := hspans.exists_of_add
        exact ⟨m, hfirst, k, hlast⟩
  | atMost high h => exact Regex.spansAll_replicate_opt false high
  | between low high h h' =>
    rw [copies, Regex.spansAll_append, Regex.spansAll_replicate]
    simp only [Regex.spansAll_replicate_opt]
    constructor
    · rintro ⟨m, hfirst, k, hk, hlast⟩
      exact ⟨low + k, ⟨Nat.le_add_right low k, by omega⟩, hfirst.trans hlast⟩
    · rintro ⟨k, ⟨hlow, hhigh⟩, hspans⟩
      obtain ⟨k, rfl⟩ := Nat.exists_eq_add_of_le hlow
      obtain ⟨m, hfirst, hlast⟩ := hspans.exists_of_add
      exact ⟨m, hfirst, k, by omega, hlast⟩

end Repetition

/-- The counts of a repetition are read as its bound. However they are written, the bound within
the limit is closed to a tree that matches between two positions exactly if some number of matches
of the operand that the repetition allows leads from the one to the other. -/
theorem closeBound_spans (r : Repetition) (closing opening : Nat) {stack below : List Item}
    {operand : Part} {s : Sharing} (hoperand : boundOperand stack = .ok (operand, below))
    (hfits : (s.measure operand.place).1 * r.charge ≤ maxExpandedSize) :
    Bound.read opening closing r.counts = .ok r.bound ∧
    ∀ units, Bound.read opening closing units = .ok r.bound →
      ∃ x s', closeBound closing
          (units.reverse.map unitItem ++ .marker (.openBound opening) :: stack) s =
          .ok (.part x :: below, s') ∧
        ∀ (subject : Text) (anchor : Int) (p q : Nat), x.tree.Spans subject anchor p q ↔
          ∃ k, r.Allows k ∧ Repeated (operand.tree.Spans subject anchor) k p q := by
  refine ⟨r.read_bound opening closing, fun units hunits ↦ ?_⟩
  rw [closeBound_unitItems, hunits]
  refine ⟨_, _, replaceOperand_bound r hoperand hfits opening, fun subject anchor p q ↦ ?_⟩
  rw [Bound.tree_expand, r.copies_bound, r.spans_copies]

/-- The part `a?` on the stack, and what is recorded by then. -/
def optionalLetter : Part × Sharing :=
  ⟨⟨.opt (.literal (.unit 'a')) true, 1⟩, ⟨#[[], [0]], ∅⟩⟩

/-- The bound of `a?{02,3}` lets `a?` match twice in `a`, once with the letter and once without. -/
theorem closeBound_optionalLetter :
    let r : Repetition := .between 2 3 (by decide) (by decide)
    let units : List CodeUnit := ['0', '2', ',', '3']
    boundOperand [.part optionalLetter.1] = .ok (optionalLetter.1, []) ∧
      (optionalLetter.2.measure optionalLetter.1.place).1 * r.charge ≤ maxExpandedSize ∧
      Bound.read 2 7 units = .ok r.bound ∧
      ∃ x s', closeBound 7 (units.reverse.map unitItem ++
          [.marker (.openBound 2), .part optionalLetter.1]) optionalLetter.2 =
          .ok ([.part x], s') ∧
        x.tree.Spans #['a'] 0 0 1 := by
  intro r units
  have hmeasure : (optionalLetter.2.measure optionalLetter.1.place).1 = 2 := by
    simp [optionalLetter, Sharing.measure, SizeTable.fill, OperandRecord.operands,
      Std.HashMap.getD_insert]
  have hfits : (optionalLetter.2.measure optionalLetter.1.place).1 * r.charge ≤
      maxExpandedSize := by
    rw [hmeasure]
    decide
  have hread : Bound.read 2 7 units = .ok r.bound := rfl
  have hoperand : boundOperand [.part optionalLetter.1] = .ok (optionalLetter.1, []) := rfl
  obtain ⟨-, hcloses⟩ := closeBound_spans r 7 2 hoperand hfits
  obtain ⟨x, s', hclose, hspans⟩ := hcloses units hread
  have hallows : r.Allows 2 := ⟨Nat.le_refl 2, by decide⟩
  refine ⟨hoperand, hfits, hread, x, s', hclose, (hspans _ _ _ _).mpr ⟨2, hallows, ?_⟩⟩
  exact ⟨1, Or.inr ⟨rfl, rfl⟩, 1, Or.inl rfl, rfl⟩

end Written

end ExtendedRegex
