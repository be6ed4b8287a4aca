import ExtendedRegex.Matcher.Basic
import ExtendedRegex.Proofs.Reading
import ExtendedRegex.Proofs.Spans

/-!
Which subjects are matched. Without a limit every attempt ends with an answer, and the answer is a
match exactly where the tree spans a part of the subject.
-/

set_option autoImplicit false
set_option relaxedAutoImplicit false

namespace ExtendedRegex

/-- An attempt with the program of a tree finds a match exactly where the tree spans something. -/
theorem Regex.searchAt_compile_spans (e : Regex) {subject : Text} (anchor : Int) {position : Nat}
    (h : position ≤ subject.size) :
    ∃ found, e.compile.searchAt subject position ⟨some anchor, none⟩ = .ok found ∧
      (found ≠ none ↔ ∃ stop, e.Spans subject anchor position stop) := by
  have hp := e.compile_wellFormed
  obtain ⟨r, houtcome⟩ := Program.exists_outcome hp anchor h
  refine ⟨_, Program.searchAt_of_outcome hp h houtcome, ?_⟩
  rw [← live_start_compile_iff, ← Program.outcome_ne_none_iff hp h houtcome, ne_eq,
    Option.map_eq_none_iff]

theorem Regex.spans_cat_endAnchor {e : Regex} {subject : Text} {anchor : Int} {position : Nat} :
    (∃ stop, (e.cat .endAnchor).Spans subject anchor position stop) ↔
      e.Spans subject anchor position subject.size := by
  constructor
  · rintro ⟨stop, middle, hspans, rfl, rfl⟩
    exact hspans
  · intro hspans
    exact ⟨subject.size, subject.size, hspans, rfl, rfl⟩

theorem Matcher.matchesWhole_spans (m : Matcher) (input : Text) (h : m.limits.maxSteps = none) :
    ∃ b, (m.matchesWhole input).result = .ok b ∧
      (b = true ↔ m.tree.Spans input 0 0 input.size) := by
  obtain ⟨found, hsearch, hfound⟩ :=
    (m.tree.cat .endAnchor).searchAt_compile_spans 0 (Nat.zero_le input.size)
  have hwhole : (m.matchesWhole input).result = .ok found.isSome := by
    have hresult : (m.matchesWhole input).result =
        ((m.tree.cat .endAnchor).compile.searchAt input (0 : Nat) ⟨some 0, none⟩).map
          Option.isSome := by
      rw [← h]
      rfl
    rw [hresult, hsearch]
    rfl
  refine ⟨found.isSome, hwhole, ?_⟩
  rw [← Regex.spans_cat_endAnchor, ← hfound, Option.isSome_iff_ne_none]

/-- Without a limit, an attempt finds a match exactly where the tree spans something, and an input
matches as a whole exactly if the tree of the matcher spans it. -/
theorem recognition_iff_spans :
    (∀ (e : Regex) (subject : Text) (anchor : Int) (position : Nat), position ≤ subject.size →
      ∃ found, e.compile.searchAt subject position ⟨some anchor, none⟩ = .ok found ∧
        (found ≠ none ↔ ∃ stop, e.Spans subject anchor position stop)) ∧
    ∀ (m : Matcher) (input : Text), m.limits.maxSteps = none →
      ∃ b, (m.matchesWhole input).result = .ok b ∧
        (b = true ↔ m.tree.Spans input 0 0 input.size) :=
  ⟨fun e _ anchor _ h ↦ e.searchAt_compile_spans anchor h,
    fun m input h ↦ m.matchesWhole_spans input h⟩

/-! ### A loop whose body can be empty -/

/-- The tree of `(a*|b)*`. -/
def nullableLoop : Regex :=
  .star (.group 0 (.alt (.star (.literal (.unit 'a')) true) (.literal (.unit 'b')))) true

theorem parse_nullableLoop :
    Regex.parse #['(', 'a', '*', '|', 'b', ')', '*'] 100000 = .ok nullableLoop := by
  have hrun : ReadState.run #['(', 'a', '*', '|', 'b', ')', '*'] {} {} =
      .ok (⟨7, .normal, 0, [.part ⟨nullableLoop, 4⟩]⟩,
        ⟨#[[], [0], [1, 0], [2], [3]], ∅⟩) := by
    rw [ReadState.run_of_step (by decide) rfl, ReadState.run_of_step (by decide) rfl,
      ReadState.run_of_step (by decide) rfl, ReadState.run_of_step (by decide) rfl,
      ReadState.run_of_step (by decide) rfl, ReadState.run_of_step (by decide) rfl,
      ReadState.run_of_step (by decide) rfl, ReadState.run_of_size_le (by decide)]
    rfl
  have hsize : (Sharing.measure ⟨#[[], [0], [1, 0], [2], [3]], ∅⟩ 4).1 = 6 := by
    simp [Sharing.measure, SizeTable.fill, OperandRecord.operands, Std.HashMap.getD_insert]
  unfold Regex.parse Regex.read
  simp only [hrun]
  simp [ReadState.result, closeBranch, Part.before, Item.marker?, hsize, maxExpandedSize, bind,
    Except.bind, pure, Except.pure]

def nullableLoopMatcher : Matcher where
  pattern := #['(', 'a', '*', '|', 'b', ')', '*']
  limits := {}
  tree := nullableLoop
  parse_eq := parse_nullableLoop
  program := nullableLoop.compile
  program_eq := rfl

theorem nullableLoop_spans (anchor : Int) : nullableLoop.Spans #['a', 'b'] anchor 0 2 := by
  have ha : (Regex.literal (.unit 'a')).Spans #['a', 'b'] anchor 0 1 := ⟨rfl, rfl⟩
  have hb : (Regex.literal (.unit 'b')).Spans #['a', 'b'] anchor 1 2 := ⟨rfl, rfl⟩
  exact .tail (.single (Or.inl (.single ha))) (Or.inr hb)

theorem nullableLoop_recognized :
    (∃ found, nullableLoop.compile.searchAt #['a', 'b'] (0 : Nat) ⟨some 0, none⟩ = .ok found ∧
      found ≠ none) ∧
    (nullableLoopMatcher.matchesWhole #['a', 'b']).result = .ok true := by
  constructor
  · obtain ⟨found, hsearch, hfound⟩ :=
      recognition_iff_spans.1 nullableLoop #['a', 'b'] 0 0 (by decide)
    exact ⟨found, hsearch, hfound.mpr ⟨2, nullableLoop_spans 0⟩⟩
  · obtain ⟨b, hresult, hb⟩ := recognition_iff_spans.2 nullableLoopMatcher #['a', 'b'] rfl
    rw [hresult, hb.mpr (nullableLoop_spans 0)]

end ExtendedRegex
