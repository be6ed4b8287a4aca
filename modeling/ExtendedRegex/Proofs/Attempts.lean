import ExtendedRegex.Proofs.Excerpts

/-!
Searches and attempts. Without a limit, what a matcher finds from an offset on is what an attempt
finds at the first place where one succeeds, so whatever is said of searches one after another can
be said of attempts at single places.
-/

set_option autoImplicit false
set_option relaxedAutoImplicit false

namespace ExtendedRegex

namespace Matcher

variable {m : Matcher} {input : Text} {offset : Nat} {found : Match}

/-- The match that starts at an offset of the input, if there is one, searched for without a
limit. -/
def attempt (m : Matcher) (input : Text) (offset : Nat) :
    Except LimitExceeded (Option Match) :=
  (m.program.searchAt input offset ⟨some 0, none⟩).map (Option.map (.ofFound input))

theorem wellFormed_program (m : Matcher) : m.program.WellFormed := by
  rw [m.program_eq]
  exact m.tree.compile_wellFormed

theorem attempt_of_outcome {r : Option Slots} (h : offset ≤ input.size)
    (houtcome : m.program.Outcome input 0 List.Nodup [m.program.start offset] r) :
    m.attempt input offset =
      .ok (r.map fun slots ↦ .ofFound input (slots.found m.program.groupCount)) := by
  rw [attempt, Program.searchAt_of_outcome m.wellFormed_program h houtcome, Except.map,
    Option.map_map]
  rfl

/-- What an attempt finds starts where it was tried, and stops in the input. -/
theorem ends_of_attempt (h : offset ≤ input.size)
    (hfound : m.attempt input offset = .ok (some found)) :
    ∃ stop : Nat, found.start = offset ∧ found.stop = stop ∧ offset ≤ stop ∧ stop ≤ input.size ∧
      m.tree.Spans input 0 offset stop := by
  obtain ⟨r, houtcome⟩ := Program.exists_outcome m.wellFormed_program 0 h
  rw [attempt_of_outcome h houtcome] at hfound
  obtain ⟨slots, rfl, rfl⟩ := Option.map_eq_some_iff.mp (Except.ok.inj hfound)
  rw [m.program_eq] at houtcome ⊢
  obtain ⟨stop, hspan, hle, hstop, hspans⟩ := Regex.spans_of_outcome h houtcome
  obtain ⟨hfirst, hlast⟩ := Match.ends_ofFound input hspan
  exact ⟨stop, hfirst, hlast, hle, hstop, hspans⟩

/-- The search after a match goes on at its end, or one unit further if the match is empty. -/
theorem next_of_attempt {start stop : Nat} (hstart : start ≤ input.size)
    (hfound : m.attempt input start = .ok (some found)) (hstop : found.stop = stop) :
    found.next = (max stop (start + 1) : Nat) := by
  obtain ⟨stop', hfirst, hlast, hbelow, -, -⟩ := ends_of_attempt hstart hfound
  rw [Match.next]
  split <;> omega

/-- An attempt ends, with a match or without, and there is one exactly where the tree spans
something. -/
theorem attempt_cases (m : Matcher) (h : offset ≤ input.size) :
    m.attempt input offset = .ok none ∧ (∀ stop, ¬ m.tree.Spans input 0 offset stop) ∨
      ∃ found, m.attempt input offset = .ok (some found) := by
  obtain ⟨found, hsearch, hfound⟩ := m.tree.searchAt_compile_spans 0 h
  rw [← m.program_eq] at hsearch
  rw [attempt, hsearch]
  cases found with
  | none => exact Or.inl ⟨rfl, fun stop hspans ↦ hfound.mpr ⟨stop, hspans⟩ rfl⟩
  | some found => exact Or.inr ⟨_, rfl⟩

/-- What is found from an offset on: at the places before the match, attempts find nothing. -/
inductive Leftmost (m : Matcher) (input : Text) (offset : Nat) : Option Match → Prop
  | none (hnone : ∀ k, offset ≤ k → k ≤ input.size → m.attempt input k = .ok none) :
    Leftmost m input offset none
  | some {start : Nat} {found : Match} (hle : offset ≤ start) (hstart : start ≤ input.size)
    (hfound : m.attempt input start = .ok (some found))
    (hnone : ∀ k, offset ≤ k → k < start → m.attempt input k = .ok none) :
    Leftmost m input offset (some found)

theorem find_eq_search (hlimit : m.limits.maxSteps = none) {r : Option Found}
    (h : m.program.search input offset ⟨some 0, none⟩ = .ok r) :
    (m.find input offset).result = .ok (r.map (.ofFound input)) := by
  rw [find, hlimit, h]

/-- Without a limit, a search ends with the leftmost match. -/
theorem exists_find (hlimit : m.limits.maxSteps = none) (h : offset ≤ input.size) :
    ∃ r, (m.find input offset).result = .ok r ∧ m.Leftmost input offset r := by
  have hp := m.wellFormed_program
  rcases Program.exists_first_outcome hp 0 offset with
    hnone | ⟨start, slots, hle, hstart, hsome, hnone⟩
  · have hsearch := Program.search_of_scan h (Program.scan_eq_none hp h hnone)
    exact ⟨none, find_eq_search hlimit hsearch,
      .none fun k hle hk ↦ attempt_of_outcome hk (hnone k hle hk)⟩
  · have hsearch := Program.search_of_scan h (Program.scan_eq_some hp hstart hle hsome hnone)
    exact ⟨_, find_eq_search hlimit hsearch, .some hle hstart (attempt_of_outcome hstart hsome)
      fun k hle hlt ↦ attempt_of_outcome (by omega) (hnone k hle hlt)⟩

end Matcher

end ExtendedRegex
