import ExtendedRegex.Proofs.Renumbering

/-!
Groups are numbered in the order of their opening parentheses, leaving out those in the operand of a
bound that allows no copies, and what is found tells of each group under its number.
-/

set_option autoImplicit false
set_option relaxedAutoImplicit false

namespace ExtendedRegex

/-- The bounds of a pattern, each with its operand, in the order in which they end. -/
def bounds (pattern : Text) : List (Bound × Regex) := ReadState.bounds pattern {} {}

/-- The offsets of the parentheses whose groups are in the tree: all but those in the operand of a
bound that allows no copies. -/
def keptGroups (pattern : Text) : List Nat :=
  (openParens pattern).filter (· ∉ vanished (bounds pattern))

/-- Every parenthesis opens a group of the tree if all bounds allow copies. -/
theorem keptGroups_eq_openParens {pattern : Text}
    (h : ∀ q ∈ bounds pattern, ¬ q.1.Vanishing) : keptGroups pattern = openParens pattern := by
  have hnone : vanished (bounds pattern) = [] := by
    rw [vanished, List.flatMap_eq_nil_iff]
    exact fun q hq ↦ if_neg (h q hq)
  rw [keptGroups, hnone, List.filter_eq_self]
  simp

section Parsing

variable {pattern : Text} {maxLength : Int} {e : Regex}

/-- A tree has the groups of its pattern, in the order of their parentheses, and each of them is
one group however often it occurs. -/
theorem labels_of_parse (h : Regex.parse pattern maxLength = .ok e)
    (hbounds : ∀ q ∈ bounds pattern, q.1.Determinate) :
    e.Coherent ∧ e.labels = keptGroups pattern := by
  obtain ⟨s, sharing, hrun, hresult⟩ := exists_run_of_parse h
  obtain ⟨root, sharing', hclose, -, rfl⟩ := ReadState.exists_of_result hresult
  have hempty : Numbered [] := ⟨List.nodup_nil, fun _ hp ↦ nomatch hp⟩
  obtain ⟨hnumbered, hlabels⟩ := ReadState.run_renumbers hrun hempty (by simp [stackLabels]) hbounds
  obtain ⟨hnumbered', hlabels'⟩ := keeps_closeBranch hclose hnumbered
  rw [pending, hlabels] at hlabels'
  exact ⟨hnumbered'.coherent_top, hlabels'⟩

end Parsing

/-! ### What is reported for a group -/

namespace Regex

variable {e : Regex} {subject : Text} {anchor position : Int} {found : Found}

variable (e subject anchor found) in
/-- What is found tells, for each group, where the last way through it goes from and to. -/
def Reports : Prop :=
  ∃ start stop log, e.Traverses subject anchor start log stop ∧
    found.start = some start ∧ found.stop = some stop ∧
      ∀ k label, e.labels[k]? = some label →
        found.spans[k + 1]? = some ((Traversal.last? log label).map Traversal.span)

theorem Records.reports {slots : Slots} {start stop : Nat} {log : List Traversal}
    (h : e.Records subject anchor slots start log stop) :
    e.Reports subject anchor (slots.found e.compile.groupCount) := by
  refine ⟨start, stop, log, h.traverses, h.start_eq, h.stop_eq, fun k label hlabel ↦ ?_⟩
  obtain ⟨hk, -⟩ := List.getElem?_eq_some_iff.mp hlabel
  obtain ⟨hstart, hstop⟩ := h.group_eq k label hlabel
  have hspan : slots.span (k + 1) = (Traversal.last? log label).map Traversal.span := by
    rw [Slots.span, hstart, hstop]
    cases Traversal.last? log label <;> rfl
  rw [Slots.found, (code_compile e).2]
  simp [hk, hspan]

theorem reports_of_search (hcoherent : e.Coherent) {options : SearchOptions}
    (h : e.compile.search subject position options = .ok (some found)) :
    e.Reports subject (options.anchor.getD position) found := by
  obtain ⟨start, slots, -, -, rfl, houtcome⟩ := Program.outcome_of_search e.compile_wellFormed h
  obtain ⟨log, stop, hrecords⟩ := records_of_outcome hcoherent houtcome
  exact hrecords.reports

theorem reports_of_searchAt (hcoherent : e.Coherent) {options : SearchOptions}
    (h : e.compile.searchAt subject position options = .ok (some found)) :
    e.Reports subject (options.anchor.getD position) found := by
  obtain ⟨slots, -, -, rfl, houtcome⟩ := Program.outcome_of_searchAt e.compile_wellFormed h
  obtain ⟨log, stop, hrecords⟩ := records_of_outcome hcoherent houtcome
  exact hrecords.reports

end Regex

/-- Groups are numbered in the order of their opening parentheses, leaving out those in the operand
of a bound that allows no copies. There are no other groups, and what is found by a search or by an
attempt tells, under the number of a group, the last way through the group of that parenthesis. -/
theorem parse_groups {pattern : Text} {maxLength : Int} {e : Regex}
    (h : Regex.parse pattern maxLength = .ok e)
    (hbounds : ∀ q ∈ bounds pattern, q.1.Determinate) :
    e.Coherent ∧ e.labels = keptGroups pattern ∧
      e.compile.groupCount = (keptGroups pattern).length + 1 ∧
      ∀ (subject : Text) (position : Int) (options : SearchOptions) (found : Found),
        e.compile.search subject position options = .ok (some found) ∨
          e.compile.searchAt subject position options = .ok (some found) →
        ∃ start stop log, e.Traverses subject (options.anchor.getD position) start log stop ∧
          found.start = some start ∧ found.stop = some stop ∧
            ∀ k label, (keptGroups pattern)[k]? = some label →
              found.spans[k + 1]? = some ((Traversal.last? log label).map Traversal.span) := by
  obtain ⟨hcoherent, hlabels⟩ := labels_of_parse h hbounds
  refine ⟨hcoherent, hlabels, ?_, fun subject position options found hfound ↦ ?_⟩
  · rw [← hlabels, (Regex.code_compile e).2]
  · rw [← hlabels]
    exact hfound.elim (Regex.reports_of_search hcoherent) (Regex.reports_of_searchAt hcoherent)

/-! ### A group that vanishes -/

/-- The pattern `(a){0}(b)`. -/
def vanishingGroup : Text := #['(', 'a', ')', '{', '0', '}', '(', 'b', ')']

/-- The operand of the bound, and the bound, in front of its closing brace. -/
def vanishingStack : List Item :=
  [.part (.leaf (.literal (.unit '0'))), .marker (.openBound 3),
    .part ⟨.group 0 (.literal (.unit 'a')), 1⟩]

/-- The tree of the pattern: the group in front of the bound is not part of it. -/
def vanishingTree : Regex := .cat .empty (.group 6 (.literal (.unit 'b')))

def vanishingSizes : SizeTable := .insert (.insert ∅ 0 1) 1 2

theorem measure_vanishingGroup :
    Sharing.measure ⟨#[[], [0]], ∅⟩ 1 = (2, ⟨#[[], [0]], vanishingSizes⟩) := by
  simp [vanishingSizes, Sharing.measure, SizeTable.fill, OperandRecord.operands,
    Std.HashMap.getD_insert]

theorem step_vanishingGroup :
    ReadState.step vanishingGroup ⟨5, .bound, 0, vanishingStack⟩ ⟨#[[], [0]], ∅⟩ =
      .ok (⟨6, .normal, 0, [.part (.leaf .empty)]⟩, ⟨#[[], [0], [1]], vanishingSizes⟩) := by
  have hread : Bound.read 3 5 ['0'] = .ok ⟨.exact 0, some (.exact 0)⟩ := rfl
  have hclose : closeBound 5 vanishingStack ⟨#[[], [0]], ∅⟩ =
      .ok ([.part (.leaf .empty)], ⟨#[[], [0], [1]], vanishingSizes⟩) := by
    simp only [vanishingStack, closeBound, Part.leaf, boundUnits, boundOperand, hread,
      measure_vanishingGroup, bind, Except.bind]
    rfl
  have hnext : Token.next vanishingGroup .bound 5 = .ok ⟨.closeBound, 5, 6⟩ := rfl
  simp only [ReadState.step, ReadState.react, hnext, hclose, bind, Except.bind]
  rfl

/-- The steps of the reading, up to the end of the pattern. -/
theorem run_vanishingGroup :
    ReadState.run vanishingGroup {} {} = .ok (⟨9, .normal, 0,
      [.part ⟨.group 6 (.literal (.unit 'b')), 3⟩, .part (.leaf .empty)]⟩,
      ⟨#[[], [0], [1], [0]], vanishingSizes⟩) ∧
    bounds vanishingGroup =
      [(⟨.exact 0, some (.exact 0)⟩, .group 0 (.literal (.unit 'a')))] := by
  have h₀ : ReadState.step vanishingGroup {} {} =
      .ok (⟨1, .normal, 1, [.marker (.openGroup 0 0)]⟩, {}) := rfl
  have h₁ : ReadState.step vanishingGroup ⟨1, .normal, 1, [.marker (.openGroup 0 0)]⟩ {} =
      .ok (⟨2, .normal, 1, [.part (.leaf (.literal (.unit 'a'))), .marker (.openGroup 0 0)]⟩,
        {}) := rfl
  have h₂ : ReadState.step vanishingGroup
      ⟨2, .normal, 1, [.part (.leaf (.literal (.unit 'a'))), .marker (.openGroup 0 0)]⟩ {} =
      .ok (⟨3, .normal, 0, vanishingStack.drop 2⟩, ⟨#[[], [0]], ∅⟩) := rfl
  have h₃ : ReadState.step vanishingGroup ⟨3, .normal, 0, vanishingStack.drop 2⟩
      ⟨#[[], [0]], ∅⟩ = .ok (⟨4, .bound, 0, vanishingStack.drop 1⟩, ⟨#[[], [0]], ∅⟩) := rfl
  have h₄ : ReadState.step vanishingGroup ⟨4, .bound, 0, vanishingStack.drop 1⟩
      ⟨#[[], [0]], ∅⟩ = .ok (⟨5, .bound, 0, vanishingStack⟩, ⟨#[[], [0]], ∅⟩) := rfl
  have h₅ := step_vanishingGroup
  have h₆ : ReadState.step vanishingGroup ⟨6, .normal, 0, [.part (.leaf .empty)]⟩
      ⟨#[[], [0], [1]], vanishingSizes⟩ =
      .ok (⟨7, .normal, 1, [.marker (.openGroup 0 6), .part (.leaf .empty)]⟩,
        ⟨#[[], [0], [1]], vanishingSizes⟩) := rfl
  have h₇ : ReadState.step vanishingGroup
      ⟨7, .normal, 1, [.marker (.openGroup 0 6), .part (.leaf .empty)]⟩
      ⟨#[[], [0], [1]], vanishingSizes⟩ =
      .ok (⟨8, .normal, 1, [.part (.leaf (.literal (.unit 'b'))), .marker (.openGroup 0 6),
        .part (.leaf .empty)]⟩, ⟨#[[], [0], [1]], vanishingSizes⟩) := rfl
  have h₈ : ReadState.step vanishingGroup
      ⟨8, .normal, 1, [.part (.leaf (.literal (.unit 'b'))), .marker (.openGroup 0 6),
        .part (.leaf .empty)]⟩ ⟨#[[], [0], [1]], vanishingSizes⟩ =
      .ok (⟨9, .normal, 0, [.part ⟨.group 6 (.literal (.unit 'b')), 3⟩, .part (.leaf .empty)]⟩,
        ⟨#[[], [0], [1], [0]], vanishingSizes⟩) := rfl
  constructor
  · rw [ReadState.run_of_step (by decide) h₀, ReadState.run_of_step (by decide) h₁,
      ReadState.run_of_step (by decide) h₂, ReadState.run_of_step (by decide) h₃,
      ReadState.run_of_step (by decide) h₄, ReadState.run_of_step (by decide) h₅,
      ReadState.run_of_step (by decide) h₆, ReadState.run_of_step (by decide) h₇,
      ReadState.run_of_step (by decide) h₈, ReadState.run_of_size_le (by decide)]
  · rw [bounds, ReadState.bounds_of_step (by decide) rfl h₀,
      ReadState.bounds_of_step (by decide) rfl h₁, ReadState.bounds_of_step (by decide) rfl h₂,
      ReadState.bounds_of_step (by decide) rfl h₃, ReadState.bounds_of_step (by decide) rfl h₄,
      ReadState.bounds_of_step (by decide) rfl h₅, ReadState.bounds_of_step (by decide) rfl h₆,
      ReadState.bounds_of_step (by decide) rfl h₇, ReadState.bounds_of_step (by decide) rfl h₈,
      ReadState.bounds, dif_neg (by decide)]
    rfl

theorem parse_vanishingGroup : Regex.parse vanishingGroup 100000 = .ok vanishingTree := by
  have hsize : (Sharing.measure ⟨#[[], [0], [1], [0], [0, 3]], vanishingSizes⟩ 4).1 = 4 := by
    simp [vanishingSizes, Sharing.measure, SizeTable.fill, OperandRecord.operands,
      Std.HashMap.getD_insert]
  have hlength : ¬ (100000 : Int) < vanishingGroup.size := by decide
  simp only [Regex.parse, Regex.read, if_neg hlength, run_vanishingGroup.1, ReadState.result,
    closeBranch, Part.before, Part.join, Sharing.add, bind, Except.bind, pure, Except.pure]
  simp [Item.marker?, hsize, maxExpandedSize, Part.leaf, vanishingTree]

theorem openParens_vanishingGroup : openParens vanishingGroup = [0, 6] := by
  have h₀ : Token.stream vanishingGroup .normal 0 =
      ⟨.openGroup, 0, 1⟩ :: Token.stream vanishingGroup .normal 1 :=
    Token.stream_of_next (by decide) rfl
  have h₁ : Token.stream vanishingGroup .normal 1 =
      ⟨.unit 'a', 1, 2⟩ :: Token.stream vanishingGroup .normal 2 :=
    Token.stream_of_next (by decide) rfl
  have h₂ : Token.stream vanishingGroup .normal 2 =
      ⟨.closeGroup, 2, 3⟩ :: Token.stream vanishingGroup .normal 3 :=
    Token.stream_of_next (by decide) rfl
  have h₃ : Token.stream vanishingGroup .normal 3 =
      ⟨.openBound, 3, 4⟩ :: Token.stream vanishingGroup .bound 4 :=
    Token.stream_of_next (by decide) rfl
  have h₄ : Token.stream vanishingGroup .bound 4 =
      ⟨.unit '0', 4, 5⟩ :: Token.stream vanishingGroup .bound 5 :=
    Token.stream_of_next (by decide) rfl
  have h₅ : Token.stream vanishingGroup .bound 5 =
      ⟨.closeBound, 5, 6⟩ :: Token.stream vanishingGroup .normal 6 :=
    Token.stream_of_next (by decide) rfl
  have h₆ : Token.stream vanishingGroup .normal 6 =
      ⟨.openGroup, 6, 7⟩ :: Token.stream vanishingGroup .normal 7 :=
    Token.stream_of_next (by decide) rfl
  have h₇ : Token.stream vanishingGroup .normal 7 =
      ⟨.unit 'b', 7, 8⟩ :: Token.stream vanishingGroup .normal 8 :=
    Token.stream_of_next (by decide) rfl
  have h₈ : Token.stream vanishingGroup .normal 8 =
      ⟨.closeGroup, 8, 9⟩ :: Token.stream vanishingGroup .normal 9 :=
    Token.stream_of_next (by decide) rfl
  rw [openParens, h₀, h₁, h₂, h₃, h₄, h₅, h₆, h₇, h₈, Token.stream_of_size_le (by decide)]
  rfl

/-- The first parenthesis opens no group of the tree, so the second one opens group one. -/
theorem vanishingGroup_lost :
    Regex.parse vanishingGroup 100000 = .ok vanishingTree ∧
      (openParens vanishingGroup).length = 2 ∧ vanishingTree.compile.groupCount - 1 = 1 ∧
      (openParens vanishingGroup)[0]? = some 0 ∧ vanishingTree.labels[0]? = some 6 := by
  rw [openParens_vanishingGroup, (Regex.code_compile _).2]
  exact ⟨parse_vanishingGroup, rfl, rfl, rfl, rfl⟩

theorem search_vanishingGroup :
    vanishingTree.compile.search #['b'] 0 ⟨none, none⟩ =
      .ok (some ⟨some 0, some 1, #[some ⟨0, 1⟩, some ⟨0, 1⟩]⟩) := by
  rw [Regex.compile_eq]
  exact Program.search_of_scan_slots #[some 0, some 1, some 0, some 1] (Nat.zero_le _) (by cbv)

theorem parse_groups_vanishingGroup :
    Regex.parse vanishingGroup 100000 = .ok vanishingTree ∧
      (∀ q ∈ bounds vanishingGroup, q.1.Determinate) ∧
      vanishingTree.labels = keptGroups vanishingGroup ∧
      vanishingTree.compile.groupCount = 2 ∧
      ∃ start stop log, vanishingTree.Traverses #['b'] 0 start log stop ∧
        some ⟨0, 1⟩ = (Traversal.last? log 6).map Traversal.span := by
  have hbounds : ∀ q ∈ bounds vanishingGroup, q.1.Determinate := by
    rw [run_vanishingGroup.2]
    simp [Bound.Determinate]
  have hkept : keptGroups vanishingGroup = [6] := by
    rw [keptGroups, openParens_vanishingGroup, run_vanishingGroup.2]
    decide
  obtain ⟨-, hlabels, hcount, hreports⟩ := parse_groups parse_vanishingGroup hbounds
  obtain ⟨start, stop, log, htraverses, -, -, hspans⟩ :=
    hreports #['b'] 0 ⟨none, none⟩ _ (Or.inl search_vanishingGroup)
  rw [hkept] at hcount hspans
  exact ⟨parse_vanishingGroup, hbounds, hlabels, hcount, start, stop, log, htraverses,
    Option.some.inj (hspans 0 6 rfl)⟩

end ExtendedRegex
