import ExtendedRegex.Proofs.OrderedChoice
import ExtendedRegex.Proofs.Recognition

/-!
Matches cut out of their input. A match of a tree within a part of a subject is a match within that
part alone, as long as a start anchor that holds goes on holding, so what is found is matched as a
whole once it is cut out; and the input is what stands before a match, the match, and what stands
after it.
-/

set_option autoImplicit false
set_option relaxedAutoImplicit false

namespace ExtendedRegex

/-! ### Cutting texts -/

namespace Text

variable {t : Text} {start stop : Nat}

theorem place_natCast (h : start ≤ t.size) : t.place start = start := by
  rw [place, if_neg (by omega), Int.toNat_natCast, Nat.min_eq_left h]

theorem slice_natCast (hstart : start ≤ t.size) (hstop : stop ≤ t.size) :
    t.slice start stop = t.extract start stop := by
  rw [slice, place_natCast hstart, place_natCast hstop]

theorem sliceFrom_natCast (hstart : start ≤ t.size) :
    t.sliceFrom start = t.extract start t.size := by
  rw [sliceFrom, place_natCast hstart]

/-- Three pieces of a text, cut next to each other, make up the text. -/
theorem join_slices (h : start ≤ stop) (hstop : stop ≤ t.size) :
    t.slice 0 start ++ t.slice start stop ++ t.sliceFrom stop = t := by
  have hstart : start ≤ t.size := Nat.le_trans h hstop
  have hfirst : t.slice 0 start = t.extract 0 start := slice_natCast (Nat.zero_le _) hstart
  rw [hfirst, slice_natCast hstart hstop, sliceFrom_natCast hstop]
  simp only [Array.extract_append_extract, Nat.zero_min, Nat.max_eq_right h,
    Nat.max_eq_right hstop, Array.extract_size]

end Text

/-! ### Matches within a part of a subject -/

namespace Regex

variable {e : Regex} {subject : Text} {anchor anchor' : Int} {start stop p q : Nat}

theorem reads_extract (hp : start ≤ p) (hpos : p < stop) (hstop : stop ≤ subject.size) :
    e.reads (subject.extract start stop) (p - start) = e.reads subject p := by
  rw [reads, reads, Array.getElem?_extract, if_pos (by omega), Nat.add_sub_cancel' hp]

/-- A match between two positions of a part of a subject is a match in that part, cut out, if the
start anchor holds there where it holds in the subject. -/
theorem Spans.extract
    (hanchor : ∀ k : Nat, start ≤ k → k = anchor → ((k - start : Nat) : Int) = anchor')
    (hstop : stop ≤ subject.size) (h : e.Spans subject anchor p q) (hp : start ≤ p)
    (hsize : p ≤ subject.size) (hq : q ≤ stop) :
    e.Spans (subject.extract start stop) anchor' (p - start) (q - start) := by
  induction e generalizing p q with
  | empty => exact congrArg (· - start) h
  | any | literal | oneOf =>
    obtain ⟨hreads, rfl⟩ := h
    rw [← reads_extract hp hq hstop] at hreads
    exact ⟨hreads, by omega⟩
  | cat left right ihLeft ihRight =>
    obtain ⟨m, hleft, hright⟩ := h
    obtain ⟨hpm, hm⟩ := hleft.within hsize
    obtain ⟨hmq, -⟩ := hright.within hm
    exact ⟨m - start, ihLeft hleft hp hsize (by omega), ihRight hright (by omega) hm hq⟩
  | alt left right ihLeft ihRight =>
    exact h.imp (ihLeft · hp hsize hq) (ihRight · hp hsize hq)
  | opt inner greedy ih =>
    rcases h with rfl | h
    · exact Or.inl rfl
    · exact Or.inr (ih h hp hsize hq)
  | star inner greedy ih =>
    induction h using Relation.ReflTransGen.head_induction_on with
    | refl => exact Relation.ReflTransGen.refl
    | @head p m hround hrest ihRounds =>
      obtain ⟨hpm, hm⟩ := hround.within hsize
      obtain ⟨hmq, -⟩ := Spans.within (e := inner.star greedy) hrest hm
      exact Relation.ReflTransGen.head (ih hround hp hsize (by omega)) (ihRounds (by omega) hm)
  | plus inner greedy ih =>
    induction h using Relation.TransGen.head_induction_on with
    | single hround => exact Relation.TransGen.single (ih hround hp hsize hq)
    | @head p m hround hrest ihRounds =>
      obtain ⟨hpm, hm⟩ := hround.within hsize
      obtain ⟨hmq, -⟩ := Spans.within (e := inner.plus greedy) hrest hm
      exact Relation.TransGen.head (ih hround hp hsize (by omega)) (ihRounds (by omega) hm)
  | group label inner ih => exact ih h hp hsize hq
  | startAnchor =>
    obtain ⟨hposition, rfl⟩ := h
    exact ⟨hanchor p hp hposition, rfl⟩
  | endAnchor =>
    obtain ⟨rfl, rfl⟩ := h
    refine ⟨?_, rfl⟩
    rw [Array.size_extract]
    omega

/-- A run from a start saves the ends of a match of the tree in the first of the spans. -/
theorem spans_of_outcome {slots : Slots} (hstart : start ≤ subject.size)
    (h : e.compile.Outcome subject anchor List.Nodup [e.compile.start start] (some slots)) :
    ∃ stop : Nat, (slots.found e.compile.groupCount).spans[0]? = some (some ⟨start, stop⟩) ∧
      start ≤ stop ∧ stop ≤ subject.size ∧ e.Spans subject anchor start stop := by
  obtain ⟨⟨stop, saved⟩, hpasses, rfl⟩ := e.passes_of_outcome h
  have hspans := hpasses.spans
  obtain ⟨hle, hstop⟩ := hspans.within hstart
  refine ⟨stop, ?_, hle, hstop, hspans⟩
  rw [(code_compile e).2, Captures.found_slots]
  rfl

/-- What a search finds is a match of the tree, from a start at or after the origin, and the first
of its spans tells where. -/
theorem spans_of_search {origin : Int} {options : SearchOptions} {found : Found}
    (h : e.compile.search subject origin options = .ok (some found)) :
    ∃ start stop : Nat, found.spans[0]? = some (some ⟨start, stop⟩) ∧ origin ≤ start ∧
      start ≤ stop ∧ stop ≤ subject.size ∧
      e.Spans subject (options.anchor.getD origin) start stop := by
  obtain ⟨start, slots, horigin, hstart, rfl, houtcome⟩ :=
    Program.outcome_of_search e.compile_wellFormed h
  obtain ⟨stop, hspan, hle, hstop, hspans⟩ := spans_of_outcome hstart houtcome
  exact ⟨start, stop, hspan, horigin, hle, hstop, hspans⟩

end Regex

/-! ### What is found, cut out -/

/-- A match starts and stops where its first span does. -/
theorem Match.ends_ofFound {found : Found} {start stop : Int} (input : Text)
    (h : found.spans[0]? = some (some ⟨start, stop⟩)) :
    (ofFound input found).start = start ∧ (ofFound input found).stop = stop := by
  have hwhole : (ofFound input found).span 0 = some ⟨start, stop⟩ := by
    rw [span, if_neg (by decide)]
    exact congrArg Option.join h
  rw [Match.start, Match.stop, hwhole]
  exact ⟨rfl, rfl⟩

/-- What a matcher finds tells where it starts and stops, and the tree of the matcher spans the
input between them. -/
theorem Matcher.spans_of_find {m : Matcher} {input : Text} {origin : Int} {found : Match}
    (h : (m.find input origin).result = .ok (some found)) :
    ∃ start stop : Nat, found.input = input ∧ found.start = start ∧ found.stop = stop ∧
      origin ≤ start ∧ start ≤ stop ∧ stop ≤ input.size ∧ m.tree.Spans input 0 start stop := by
  rw [find] at h
  split at h
  · cases h
  · next r hsearch =>
    obtain ⟨found, rfl, rfl⟩ := Option.map_eq_some_iff.mp (Except.ok.inj h)
    rw [m.program_eq] at hsearch
    obtain ⟨start, stop, hspan, horigin, hle, hstop, hspans⟩ := Regex.spans_of_search hsearch
    obtain ⟨hfirst, hlast⟩ := Match.ends_ofFound input hspan
    exact ⟨start, stop, rfl, hfirst, hlast, horigin, hle, hstop, hspans⟩

/-- A match stands on its own. Without a limit, what is found in an input from some offset on is
matched as a whole once it is cut out, and together with what is before and after it, it makes up
the input. -/
theorem Matcher.matchesWhole_matched (m : Matcher) (hlimit : m.limits.maxSteps = none)
    {input : Text} {origin : Int} {found : Match}
    (h : (m.find input origin).result = .ok (some found)) :
    (m.matchesWhole found.matched).result = .ok true ∧
      found.before ++ found.matched ++ found.after = input := by
  obtain ⟨start, stop, hinput, hstart, hstop, -, hle, hsize, hspans⟩ := spans_of_find h
  rw [Match.before, Match.matched, Match.after, hinput, hstart, hstop]
  refine ⟨?_, Text.join_slices hle hsize⟩
  have hstart' : start ≤ input.size := Nat.le_trans hle hsize
  -- Within the part that is cut out, only its first position can be that of the start anchor.
  have hcut : m.tree.Spans (input.extract start stop) 0 (start - start) (stop - start) :=
    hspans.extract (by omega) hsize (Nat.le_refl _) hstart' (Nat.le_refl _)
  obtain ⟨b, hresult, hb⟩ := m.matchesWhole_spans (input.extract start stop) hlimit
  rw [Text.slice_natCast hstart' hsize, hresult, hb.mpr]
  have hlength : (input.extract start stop).size = stop - start := by
    rw [Array.size_extract, Nat.min_eq_left hsize]
  rwa [Nat.sub_self, ← hlength] at hcut

/-- The tree of `b$`. -/
def lastLetter : Regex := .cat (.literal (.unit 'b')) .endAnchor

theorem parse_lastLetter : Regex.parse #['b', '$'] 100000 = .ok lastLetter := by
  have hrun : ReadState.run #['b', '$'] {} {} =
      .ok (⟨2, .normal, 0,
        [.part (.leaf .endAnchor), .part (.leaf (.literal (.unit 'b')))]⟩, {}) := by
    rw [ReadState.run_of_step (by decide) rfl, ReadState.run_of_step (by decide) rfl,
      ReadState.run_of_size_le (by decide)]
    rfl
  have hjoin : (Part.leaf (.literal (.unit 'b'))).join .cat (.leaf .endAnchor) {} =
      (⟨lastLetter, 1⟩, ⟨#[[], [0, 0]], ∅⟩) := rfl
  have hsize : (Sharing.measure ⟨#[[], [0, 0]], ∅⟩ 1).1 = 3 := by
    simp [Sharing.measure, SizeTable.fill, OperandRecord.operands, Std.HashMap.getD_insert]
  unfold Regex.parse Regex.read
  simp only [hrun]
  simp [ReadState.result, closeBranch, Part.before, Item.marker?, hjoin, hsize, maxExpandedSize,
    bind, Except.bind, pure, Except.pure]

def lastLetterMatcher : Matcher where
  pattern := #['b', '$']
  limits := {}
  tree := lastLetter
  parse_eq := parse_lastLetter
  program := lastLetter.compile
  program_eq := rfl

theorem search_lastLetter : lastLetter.compile.search #['a', 'b', 'b'] 1 ⟨some 0, none⟩ =
    .ok (some ⟨some 2, some 3, #[some ⟨2, 3⟩]⟩) := by
  rw [Regex.compile_eq]
  exact Program.search_of_scan_slots #[some 2, some 3]
    (show 1 ≤ (#['a', 'b', 'b'] : Text).size by decide) (by cbv)

/-- The match of `b$` in `abb`. -/
def lastLetterMatch : Match := ⟨#['a', 'b', 'b'], #[some ⟨2, 3⟩]⟩

theorem find_lastLetter :
    (lastLetterMatcher.find #['a', 'b', 'b'] 1).result = .ok (some lastLetterMatch) := by
  have hsearch : lastLetterMatcher.program.search #['a', 'b', 'b'] 1
      ⟨some 0, lastLetterMatcher.limits.maxSteps⟩ = _ := search_lastLetter
  rw [Matcher.find, hsearch]
  rfl

theorem matchesWhole_lastLetter :
    lastLetterMatcher.limits.maxSteps = none ∧
      (lastLetterMatcher.find #['a', 'b', 'b'] 1).result = .ok (some lastLetterMatch) ∧
      (lastLetterMatcher.matchesWhole #['b']).result = .ok true ∧
      (#['a', 'b'] : Text) ++ (#['b'] : Text) ++ #[] = lastLetterMatch.input := by
  have hbefore : lastLetterMatch.before = (#['a', 'b'] : Text) := by decide
  have hmatched : lastLetterMatch.matched = (#['b'] : Text) := by decide
  have hafter : lastLetterMatch.after = #[] := by decide
  obtain ⟨hwhole, hinput⟩ := lastLetterMatcher.matchesWhole_matched rfl find_lastLetter
  rw [hbefore, hmatched, hafter] at hinput
  rw [hmatched] at hwhole
  exact ⟨rfl, find_lastLetter, hwhole, hinput⟩

end ExtendedRegex
