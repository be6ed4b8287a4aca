import ExtendedRegex.Proofs.Attempts
import ExtendedRegex.Proofs.FixedLength
import ExtendedRegex.Proofs.Repetitions
import ExtendedRegex.Proofs.RoundTrip

/-!
Searching for plain text. A pattern in which every special unit is escaped is read as the units of
the text one after another; such a tree matches where the text occurs, so a search finds the first
occurrence, and only the text itself matches as a whole.
-/

set_option autoImplicit false
set_option relaxedAutoImplicit false

namespace ExtendedRegex

/-! ### Occurrences -/

namespace Text

variable {t input : Text} {units : List CodeUnit} {u : CodeUnit} {offset : Nat}

def OccursAt (t input : Text) (offset : Nat) : Prop := t.toList <+: input.toList.drop offset

instance (t input : Text) : DecidablePred (t.OccursAt input) :=
  fun offset ↦ inferInstanceAs (Decidable (t.toList <+: input.toList.drop offset))

/-- The first offset, from an origin on, where a text occurs in an input. -/
def firstIn? (t input : Text) (origin : Nat) : Option Nat :=
  (List.range' origin (input.size + 1 - origin)).find? fun offset ↦ t.OccursAt input offset

/-- The pattern that stands for a text: special units are written with a backslash. -/
def escaped (t : Text) : Text := (t.toList.flatMap Mode.normal.write).toArray

theorem cons_prefix_drop : u :: units <+: input.toList.drop offset ↔
    input[offset]? = some u ∧ units <+: input.toList.drop (offset + 1) := by
  rw [List.cons_prefix_iff]
  constructor
  · rintro ⟨rest, hdrop, hrest⟩
    exact ⟨getElem?_of_drop hdrop, drop_succ_of_drop hdrop ▸ hrest⟩
  · rintro ⟨hu, hrest⟩
    exact ⟨_, drop_of_getElem? hu, hrest⟩

/-- A text that occurs at the start of an input and ends with it is the input. -/
theorem occursAt_zero_iff : t.OccursAt input 0 ∧ input.size = t.size ↔ input = t := by
  rw [OccursAt, List.drop_zero]
  constructor
  · rintro ⟨hoccurs, hsize⟩
    exact Array.toList_inj.mp (hoccurs.eq_of_length (by simpa using hsize.symm)).symm
  · rintro rfl
    exact ⟨List.prefix_refl _, rfl⟩

theorem size_le_size_escaped (t : Text) : t.size ≤ t.escaped.size := by
  have hwrite : ∀ u, 1 ≤ (Mode.normal.write u).length := fun u ↦ by
    obtain ⟨v, units, h⟩ := Mode.normal.exists_write u
    simp [h]
  have hlength : ∀ units : List CodeUnit,
      units.length ≤ (units.flatMap Mode.normal.write).length := by
    intro units
    induction units with
    | nil => simp
    | cons u units ih =>
      have := hwrite u
      simp only [List.flatMap_cons, List.length_append, List.length_cons]
      omega
  simpa [escaped] using hlength t.toList

end Text

/-! ### The tree of a text -/

namespace Regex

variable {subject : Text} {anchor : Int} {p q : Nat}

/-- Chains nest to the right, which does not matter for what they span. -/
theorem spans_chain {l : List Regex} :
    (chain l).Spans subject anchor p q ↔ SpansAll subject anchor l p q := by
  induction l generalizing p with
  | nil => exact Iff.rfl
  | cons e rest ih =>
    cases rest with
    | nil => exact spansAll_singleton.symm
    | cons e' rest => exact exists_congr fun m ↦ and_congr_right fun _ ↦ ih

theorem openings_chain (l : List Regex) : (chain l).openings = l.flatMap openings := by
  induction l with
  | nil => rfl
  | cons e rest ih =>
    cases rest with
    | nil => simp [chain]
    | cons e' rest => rw [chain, openings, ih, ← List.flatMap_cons]

/-- A chain of single nodes has one node more between each of them and the next. -/
theorem nodeCount_chain {l : List Regex} (h : ∀ e ∈ l, e.nodeCount = 1) :
    (chain l).nodeCount = max 1 (2 * l.length - 1) := by
  induction l with
  | nil => rfl
  | cons e rest ih =>
    have he := h e List.mem_cons_self
    cases rest with
    | nil => exact he
    | cons e' rest =>
      rw [chain, nodeCount, he, ih fun e he ↦ h e (List.mem_cons_of_mem _ he)]
      simp only [List.length_cons]
      omega

/-- The tree of units one after another. -/
def ofUnits (units : List CodeUnit) : Regex := chain (units.map fun u ↦ literal (.unit u))

theorem reads_unit {u : CodeUnit} :
    (literal (.unit u)).reads subject p = true ↔ subject[p]? = some u := by
  rw [reads, Option.any_eq_true]
  constructor
  · rintro ⟨v, hv, hconsumes⟩
    rw [hv, of_decide_eq_true hconsumes]
  · exact fun hu ↦ ⟨u, hu, decide_eq_true rfl⟩

theorem spans_ofUnits {units : List CodeUnit} :
    (ofUnits units).Spans subject anchor p q ↔
      units <+: subject.toList.drop p ∧ q = p + units.length := by
  rw [ofUnits, spans_chain]
  induction units generalizing p with
  | nil => simp [SpansAll, eq_comm]
  | cons u units ih =>
    rw [Text.cons_prefix_drop]
    constructor
    · rintro ⟨m, ⟨hreads, rfl⟩, hrest⟩
      obtain ⟨hoccurs, rfl⟩ := ih.mp hrest
      refine ⟨⟨reads_unit.mp hreads, hoccurs⟩, ?_⟩
      rw [List.length_cons]
      omega
    · rintro ⟨⟨hu, hoccurs⟩, rfl⟩
      refine ⟨p + 1, ⟨reads_unit.mpr hu, rfl⟩, ih.mpr ⟨hoccurs, ?_⟩⟩
      rw [List.length_cons]
      omega

theorem labels_ofUnits (units : List CodeUnit) : (ofUnits units).labels = [] := by
  refine labels_eq_nil ?_
  rw [ofUnits, openings_chain, List.flatMap_eq_nil_iff]
  intro e he
  obtain ⟨u, -, rfl⟩ := List.mem_map.mp he
  rfl

theorem nodeCount_ofUnits (units : List CodeUnit) :
    (ofUnits units).nodeCount = max 1 (2 * units.length - 1) := by
  rw [ofUnits, nodeCount_chain, List.length_map]
  intro e he
  obtain ⟨u, -, rfl⟩ := List.mem_map.mp he
  rfl

/-- The tree of a text matches where the text occurs. -/
theorem fixedLength_ofUnits (t : Text) (subject : Text) (anchor : Int) :
    (ofUnits t.toList).FixedLength subject anchor (t.OccursAt subject) t.size :=
  ⟨labels_ofUnits _, fun _ _ ↦ spans_ofUnits⟩

end Regex

open Written (run_written) in
/-- An escaped text is read as its units, unless it is too long. -/
theorem parse_escaped {t : Text} (h : 2 * t.size ≤ maxExpandedSize) (maxLength : Int) :
    Regex.parse t.escaped maxLength = .ok (.ofUnits t.toList) ↔ t.escaped.size ≤ maxLength := by
  have hpattern : t.escaped.toList.drop 0 = t.toList.flatMap Mode.normal.write ++ [] := by
    simp [Text.escaped]
  have hend : t.escaped.size ≤ 0 + (t.toList.flatMap Mode.normal.write).length := by
    simp [Text.escaped]
  have hrun : ReadState.run t.escaped {} {} = _ :=
    (run_written hpattern).trans (ReadState.run_of_size_le hend)
  have hparts : ∀ p ∈ t.toList.map fun u ↦ Part.leaf (.literal (.unit u)),
      ({} : Sharing).Holds p := by
    intro p hp
    obtain ⟨u, -, rfl⟩ := List.mem_map.mp hp
    exact Sharing.sound_empty.holds_leaf rfl
  have hcloses : Closes 0 [] {} (t.toList.reverse.map Written.unitItem ++ [])
      (.ofUnits t.toList) := by
    have hjoined : Closes 0 [] {} _ _ := closes_parts (Or.inl rfl) Sharing.sound_empty hparts
    rwa [← List.map_reverse, List.map_map, List.map_map] at hjoined
  have hsize : (Regex.ofUnits t.toList).nodeCount ≤ maxExpandedSize := by
    have hpos : 1 ≤ maxExpandedSize := by decide
    rw [Regex.nodeCount_ofUnits, Array.length_toList]
    omega
  exact parse_iff_of_run hrun (ReadState.result_of_closes hcloses hsize) maxLength

/-! ### Searching -/

namespace Matcher

theorem exists_ofPattern {pattern : Text} {limits : Limits} {tree : Regex}
    (h : Regex.parse pattern limits.maxPatternLength = .ok tree) :
    ∃ m, ofPattern pattern limits = .ok m ∧ m.limits = limits ∧ m.tree = tree := by
  rw [ofPattern]
  split
  · next hparse =>
    rw [h] at hparse
    cases hparse
  · next hparse =>
    rw [h] at hparse
    cases hparse
    exact ⟨_, rfl, rfl, rfl⟩

/-- An escaped pattern searches for the text: from every origin in every input the first occurrence
is found, if there is one, and no input but the text matches as a whole. The limit on trees that are
written out is not met by patterns within the default limit on their length. -/
theorem ofPattern_escaped (t : Text) (limits : Limits)
    (hlength : t.escaped.size ≤ limits.maxPatternLength)
    (hroom : limits.maxPatternLength ≤ ({} : Limits).maxPatternLength ∨
      2 * t.size ≤ maxExpandedSize)
    (hsteps : limits.maxSteps = none) :
    ∃ m, ofPattern t.escaped limits = .ok m ∧ ∀ input : Text,
      (∀ origin : Nat, origin ≤ input.size →
        (m.find input origin).result = .ok ((t.firstIn? input origin).map fun start : Nat ↦
          ⟨input, #[some ⟨start, (start + t.size : Nat)⟩]⟩)) ∧
      (m.matchesWhole input).result = .ok (decide (input = t)) := by
  have hsize : 2 * t.size ≤ maxExpandedSize := by
    rcases hroom with hdefault | hsize
    · have := t.size_le_size_escaped
      simp only [maxExpandedSize] at hdefault ⊢
      omega
    · exact hsize
  obtain ⟨m, hm, rfl, htree⟩ := exists_ofPattern ((parse_escaped hsize _).mpr hlength)
  refine ⟨m, hm, fun input ↦ ⟨fun origin horigin ↦ ?_, ?_⟩⟩
  · have hfixed := Regex.fixedLength_ofUnits t input 0
    rw [← htree] at hfixed
    cases hfirst : t.firstIn? input origin with
    | none =>
      have hnone := List.find?_range'_eq_none.mp hfirst
      refine find_eq_search hsteps (r := none) ?_
      rw [m.program_eq]
      refine hfixed.search_none horigin fun k hle hk ↦ ?_
      simpa using hnone k hle (by omega)
    | some start =>
      obtain ⟨hoccurs, hrange, hbefore⟩ := List.find?_range'_eq_some.mp hfirst
      obtain ⟨hle, hlt⟩ := List.mem_range'_1.mp hrange
      refine find_eq_search hsteps (r := some (Regex.FixedLength.found t.size start)) ?_
      rw [m.program_eq]
      refine hfixed.search_some hle (by omega) (of_decide_eq_true hoccurs) fun k hk hlt ↦ ?_
      simpa using hbefore k hk hlt
  · obtain ⟨b, hb, hwhole⟩ := m.matchesWhole_spans input hsteps
    rw [htree, Regex.spans_ofUnits, Array.length_toList, Nat.zero_add] at hwhole
    rw [hb, Bool.eq_iff_iff.mpr (hwhole.trans
      (Text.occursAt_zero_iff.trans (decide_eq_true_iff (p := input = t)).symm))]

/-- In `aaa.b`, the text `a.b` occurs at offset 2. -/
theorem ofPattern_dotted :
    (Text.escaped #['a', '.', 'b']).size ≤ ({} : Limits).maxPatternLength ∧
    ∃ m, ofPattern #['a', '\\', '.', 'b'] {} = .ok m ∧
      (m.find #['a', 'a', 'a', '.', 'b'] (1 : Nat)).result =
        .ok (some ⟨#['a', 'a', 'a', '.', 'b'], #[some ⟨2, 5⟩]⟩) ∧
      (m.matchesWhole #['a', 'a', 'a', '.', 'b']).result = .ok false := by
  have hlength : (Text.escaped #['a', '.', 'b']).size ≤ ({} : Limits).maxPatternLength := by decide
  have hfirst : Text.firstIn? #['a', '.', 'b'] #['a', 'a', 'a', '.', 'b'] 1 = some 2 := by decide
  obtain ⟨m, hm, hinput⟩ :=
    ofPattern_escaped #['a', '.', 'b'] {} hlength (Or.inl (by decide)) rfl
  obtain ⟨hfind, hwhole⟩ := hinput #['a', 'a', 'a', '.', 'b']
  refine ⟨hlength, m, hm, ?_, hwhole⟩
  rw [hfind 1 (by decide), hfirst]
  rfl

end Matcher

end ExtendedRegex
