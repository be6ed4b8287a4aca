import ExtendedRegex.Proofs.Cuts
import ExtendedRegex.Proofs.Succession
import ExtendedRegex.Proofs.Templates

/-!
Replacements in an input. What is written consists of the pieces of the input between the matches,
with a text for each match between them: what a function makes of the match, or what the segments of
a template stand for in it. Matches replaced by themselves give back the input.
-/

set_option autoImplicit false
set_option relaxedAutoImplicit false

namespace ExtendedRegex

/-- The input with a text for each of the matches found in it, in their places. -/
def Text.replaced (input : Text) (found : List Match) (f : Match → Text) : Text :=
  interleave (input.outside 0 (found.map Match.extent)) (found.map f)

/-- What a template that is written from segments stands for. -/
def Segment.textsIn (segments : List Segment) (a : Match) : Text :=
  (segments.flatMap fun p ↦ (p.textIn a).toList).toArray

theorem Segment.expandTemplate_template_eq (segments : List Segment) :
    expandTemplate (template segments) = textsIn segments := by
  funext a
  exact Array.toList_inj.mp (expandTemplate_template segments a)

/-- The template `$0`. -/
def wholeTemplate : Replacement := .template #['$', '0']

/-- The template `$0` stands for the text of the match, or for nothing if the match has no span. -/
theorem text_wholeTemplate (a : Match) : wholeTemplate.text a = a.matched := by
  have hparts : TemplatePart.ofUnits ['$', '0'] = [.group 0] := rfl
  have htext : wholeTemplate.text a = #[] ++ (a.group 0).getD #[] := by
    rw [wholeTemplate, Replacement.text, expandTemplate, hparts]
    rfl
  rw [htext, Match.group, Match.matched, Match.start, Match.stop]
  cases a.span 0 with
  | none =>
    have hempty : a.input.slice (-1) (-1) = #[] := Array.extract_eq_empty_of_le (by omega)
    exact hempty.symm
  | some s => exact Array.empty_append

namespace Matcher

open Text (InOrder outside interleave)

variable {m : Matcher} {input : Text} {offset : Nat} {found : List Match}

/-- Copying an input with replacements puts these between the pieces of the input. -/
theorem splice_eq (input : Text) (r : Replacement) (written : Text) (place : Int)
    (found : List Match) :
    splice input r written place found =
      written ++ interleave (input.outside place (found.map Match.extent)) (found.map r.text) := by
  induction found generalizing written place with
  | nil => simp [splice, outside, interleave]
  | cons a found ih =>
    rw [splice, ih, List.map_cons, List.map_cons, outside, interleave]
    simp only [Match.start_extent, Match.stop_extent, Array.append_assoc]

theorem Succession.inOrder (h : m.Succession input 0 found) :
    input.InOrder 0 (found.map Match.extent) := by
  refine Text.inOrder_of_pairwise (by omega) (fun s hs ↦ ?_) ?_
  · obtain ⟨a, ha, rfl⟩ := List.mem_map.mp hs
    obtain ⟨start, -, hstart, hfirst, hattempt⟩ := h.attempts a ha
    obtain ⟨stop, -, hstop, hle, hsize, -⟩ := ends_of_attempt hstart hattempt
    rw [Match.start_extent, Match.stop_extent, hfirst, hstop]
    omega
  · exact List.pairwise_map.mpr (h.ordered.imp And.left)

theorem Succession.input_eq (h : m.Succession input offset found) :
    ∀ a ∈ found, a.input = input := by
  intro a ha
  obtain ⟨_, -, -, -, hattempt⟩ := h.attempts a ha
  exact input_of_attempt hattempt

/-- Asked for one match only, the searches stop behind the first. -/
theorem matchesFrom_one (hlimit : m.limits.maxSteps = none)
    (h : (m.matchesFrom input offset none).result = .ok found) :
    (m.matchesFrom input offset (some 1)).result = .ok (found.take 1) := by
  by_cases hoffset : offset ≤ input.size
  swap
  · cases (matchesFrom_of_size_lt (by omega) none).symm.trans h
    exact matchesFrom_of_size_lt (by omega) (some 1)
  obtain ⟨r, hfind, hleftmost⟩ := exists_find hlimit hoffset
  cases hleftmost with
  | none =>
    cases (matchesFrom_of_none hoffset hfind none).symm.trans h
    exact matchesFrom_of_none hoffset hfind (some 1)
  | @some start a hle hstart hattempt _ =>
    obtain ⟨stop, -, hstop, -⟩ := ends_of_attempt hstart hattempt
    have hnext := next_of_attempt hstart hattempt hstop
    obtain ⟨rest, hrest, -⟩ := m.exists_matchesFrom hlimit input (max stop (start + 1))
    rw [← hnext] at hrest
    cases (matchesFrom_of_some hoffset hfind (by omega) hrest).symm.trans h
    rw [matchesFrom, if_pos (by omega), Traced.result_bind hfind]
    dsimp only
    rw [if_neg (by simp)]
    rfl

theorem replaceAll_eq (r : Replacement) (h : (m.matchAll input none).result = .ok found) :
    (m.replaceAll input r).result = .ok (input.replaced found r.text) := by
  rw [replaceAll, Traced.result_bind h, splice_eq, Array.empty_append]
  rfl

theorem replace_eq (r : Replacement) (h : (m.matchAll input (some 1)).result = .ok found) :
    (m.replace input r).result = .ok (input.replaced found r.text) := by
  rw [replace, Traced.result_bind h, splice_eq, Array.empty_append]
  rfl

/-- Matches replaced by their own texts leave the input as it is. -/
theorem replaced_matched (hfound : input.InOrder 0 (found.map Match.extent))
    (hinput : ∀ a ∈ found, a.input = input) : input.replaced found Match.matched = input := by
  rw [Text.replaced, Match.map_matched hinput, Text.interleave_outside (Int.le_refl 0) hfound,
    Text.sliceFrom_zero]

/-- Without a limit, the matches of an input follow one another, and replacing all of them writes
the input with what a function makes of each, or with what a template stands for in each, in its
place; replacing one match writes it with the first of them replaced. All units outside of the
matches are kept, so that the input is left as it is by whatever puts the text of a match in its
place. -/
theorem replaceAll_outside (m : Matcher) (hlimit : m.limits.maxSteps = none) (input : Text) :
    ∃ found : List Match, (m.matchAll input none).result = .ok found ∧
      input.InOrder 0 (found.map Match.extent) ∧
      input.replaced found Match.matched = input ∧
      (∀ f : Match → Text,
        (m.replaceAll input (.compute f)).result = .ok (input.replaced found f) ∧
        (m.replace input (.compute f)).result = .ok (input.replaced (found.take 1) f)) ∧
      (∀ segments : List Segment,
        (m.replaceAll input (.template (Segment.template segments))).result =
          .ok (input.replaced found (Segment.textsIn segments)) ∧
        (m.replace input (.template (Segment.template segments))).result =
          .ok (input.replaced (found.take 1) (Segment.textsIn segments))) ∧
      (∀ t : Text,
        (m.replaceAll input (.template t)).result =
          .ok (input.replaced found (expandTemplate t)) ∧
        (m.replace input (.template t)).result =
          .ok (input.replaced (found.take 1) (expandTemplate t))) ∧
      (m.replaceAll input wholeTemplate).result = .ok input ∧
      (m.replace input wholeTemplate).result = .ok input ∧
      (m.replaceAll input (.compute Match.matched)).result = .ok input := by
  obtain ⟨found, hall, hsuccession⟩ := m.exists_matchesFrom hlimit input 0
  have hfirst : (m.matchAll input (some 1)).result = .ok (found.take 1) :=
    matchesFrom_one hlimit hall
  have hboth : ∀ r : Replacement,
      (m.replaceAll input r).result = .ok (input.replaced found r.text) ∧
      (m.replace input r).result = .ok (input.replaced (found.take 1) r.text) :=
    fun r ↦ ⟨replaceAll_eq r hall, replace_eq r hfirst⟩
  have horder := hsuccession.inOrder
  have hsame : input.replaced found Match.matched = input :=
    replaced_matched horder hsuccession.input_eq
  have hsameFirst : input.replaced (found.take 1) Match.matched = input := by
    refine replaced_matched ?_ fun a ha ↦ hsuccession.input_eq a (List.mem_of_mem_take ha)
    rw [List.map_take]
    exact horder.take 1
  have hwhole : wholeTemplate.text = Match.matched := funext text_wholeTemplate
  refine ⟨found, hall, horder, hsame, fun f ↦ hboth (.compute f), fun segments ↦ ?_,
    fun t ↦ hboth (.template t), ?_, ?_, ?_⟩
  · rw [← Segment.expandTemplate_template_eq]
    exact hboth (.template _)
  · rw [(hboth wholeTemplate).1, hwhole, hsame]
  · rw [(hboth wholeTemplate).2, hwhole, hsameFirst]
  · rw [(hboth (.compute Match.matched)).1]
    exact congrArg Except.ok hsame

end Matcher

/-! ### A lone surrogate between empty matches -/

def loneSurrogate : Text := #[0xD800, 'a']

/-- No letter of `(a*|b)*` matches the surrogate. There is an empty match in front of it, and another
one at the end of the input. -/
def surrogateMatches : List Match :=
  [⟨loneSurrogate, #[some ⟨0, 0⟩, none]⟩, ⟨loneSurrogate, #[some ⟨1, 2⟩, some ⟨1, 2⟩]⟩,
    ⟨loneSurrogate, #[some ⟨2, 2⟩, none]⟩]

theorem find_loneSurrogate :
    (nullableLoopMatcher.find loneSurrogate (0 : Nat)).result =
        .ok (some ⟨loneSurrogate, #[some ⟨0, 0⟩, none]⟩) ∧
      (nullableLoopMatcher.find loneSurrogate (1 : Nat)).result =
        .ok (some ⟨loneSurrogate, #[some ⟨1, 2⟩, some ⟨1, 2⟩]⟩) ∧
      (nullableLoopMatcher.find loneSurrogate (2 : Nat)).result =
        .ok (some ⟨loneSurrogate, #[some ⟨2, 2⟩, none]⟩) := by
  have hfind : ∀ {offset : Nat} {found : Found},
      nullableLoop.compile.search loneSurrogate offset ⟨some 0, none⟩ = .ok (some found) →
        (nullableLoopMatcher.find loneSurrogate offset).result =
          .ok (some (.ofFound loneSurrogate found)) :=
    fun h ↦ Matcher.find_eq_search (m := nullableLoopMatcher) rfl h
  have hone : 1 ≤ loneSurrogate.size := by decide
  have htwo : 2 ≤ loneSurrogate.size := by decide
  rw [Regex.compile_eq] at hfind
  exact ⟨hfind (Program.search_of_scan_slots #[some 0, some 0, none, none] (Nat.zero_le _)
      (by cbv)),
    hfind (Program.search_of_scan_slots #[some 1, some 2, some 1, some 2] hone (by cbv)),
    hfind (Program.search_of_scan_slots #[some 2, some 2, none, none] htwo (by cbv))⟩

theorem matchAll_loneSurrogate :
    (nullableLoopMatcher.matchAll loneSurrogate none).result = .ok surrogateMatches := by
  obtain ⟨hzero, hone, htwo⟩ := find_loneSurrogate
  have hthree : (nullableLoopMatcher.matchesFrom loneSurrogate (3 : Nat) none).result = .ok [] :=
    Matcher.matchesFrom_of_size_lt (by decide) none
  exact Matcher.matchesFrom_of_some (Nat.zero_le _) hzero (by decide)
    (Matcher.matchesFrom_of_some (by decide) hone (by decide)
      (Matcher.matchesFrom_of_some (by decide) htwo (by decide) hthree))

/-- A mark behind the text of each match, brackets around it, and the text as it is. -/
theorem replaceAll_loneSurrogate :
    nullableLoopMatcher.limits.maxSteps = none ∧
      (nullableLoopMatcher.matchAll loneSurrogate none).result = .ok surrogateMatches ∧
      (nullableLoopMatcher.replaceAll loneSurrogate
        (.compute fun a ↦ a.matched.push '!')).result = .ok #['!', 0xD800, 'a', '!', '!'] ∧
      (nullableLoopMatcher.replace loneSurrogate
        (.compute fun a ↦ a.matched.push '!')).result = .ok #['!', 0xD800, 'a'] ∧
      (nullableLoopMatcher.replaceAll loneSurrogate
        (.template (Segment.template [.literal #['['], .reference 0, .literal #[']']]))).result =
        .ok #['[', ']', 0xD800, '[', 'a', ']', '[', ']'] ∧
      (nullableLoopMatcher.replaceAll loneSurrogate wholeTemplate).result = .ok loneSurrogate := by
  obtain ⟨found, hall, -, -, hcompute, hsegments, -, hwhole, -⟩ :=
    nullableLoopMatcher.replaceAll_outside rfl loneSurrogate
  obtain rfl : surrogateMatches = found := Except.ok.inj (matchAll_loneSurrogate.symm.trans hall)
  obtain ⟨hmarked, hmarkedFirst⟩ := hcompute fun a ↦ a.matched.push '!'
  have hbracketed := (hsegments [.literal #['['], .reference 0, .literal #[']']]).1
  exact ⟨rfl, hall, hmarked.trans (by decide), hmarkedFirst.trans (by decide),
    hbracketed.trans (by decide), hwhole⟩

end ExtendedRegex
