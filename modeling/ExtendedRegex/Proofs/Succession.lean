import ExtendedRegex.Proofs.Attempts

/-!
The matches of an input one after another. Each search goes on where the match before it ended, or
one unit further if that match was empty. The matches therefore come in order without overlapping,
and wherever an attempt succeeds, a match starts or one that has started before is still under way.
-/

set_option autoImplicit false
set_option relaxedAutoImplicit false

namespace ExtendedRegex

namespace Matcher

/-- The matches of an input from an offset on. -/
structure Succession (m : Matcher) (input : Text) (offset : Nat) (found : List Match) : Prop where
  /-- Each match is what an attempt at its start finds. -/
  attempts : ∀ a ∈ found, ∃ start : Nat, offset ≤ start ∧ start ≤ input.size ∧ a.start = start ∧
    m.attempt input start = .ok (some a)
  /-- A match starts at or after the end of those before it, and after the end of empty ones. -/
  ordered : found.Pairwise fun a b ↦ a.stop ≤ b.start ∧ (a.stop = a.start → a.stop < b.start)
  /-- Where an attempt succeeds, a match starts, or the place lies strictly inside a match. -/
  complete : ∀ k : Nat, offset ≤ k → k ≤ input.size → m.attempt input k ≠ .ok none →
    ∃ a ∈ found, a.start = k ∨ a.start < k ∧ k < a.stop
  length_le : found.length ≤ input.size + 1 - offset

variable {m : Matcher} {input : Text} {offset start stop : Nat} {found : Match}
  {rest : List Match}

theorem succession_nil (h : ∀ k, offset ≤ k → k ≤ input.size → m.attempt input k = .ok none) :
    m.Succession input offset [] where
  attempts := by simp
  ordered := .nil
  complete k hle hk hsome := absurd (h k hle hk) hsome
  length_le := Nat.zero_le _

/-- The leftmost match, and those from where it ended on. An empty match is stepped over, and there
is no second attempt at its place. -/
theorem Succession.cons (hle : offset ≤ start) (hstart : start ≤ input.size)
    (hfound : m.attempt input start = .ok (some found))
    (hnone : ∀ k, offset ≤ k → k < start → m.attempt input k = .ok none)
    (hstop : found.stop = stop) (hrest : m.Succession input (max stop (start + 1)) rest) :
    m.Succession input offset (found :: rest) := by
  obtain ⟨stop', hfirst, hlast, hbelow, -, -⟩ := ends_of_attempt hstart hfound
  obtain rfl : stop = stop' := by omega
  refine ⟨fun a ha ↦ ?_, List.pairwise_cons.mpr ⟨fun b hb ↦ ?_, hrest.ordered⟩,
    fun k hk hsize hsome ↦ ?_, ?_⟩
  · rcases List.mem_cons.mp ha with rfl | ha
    · exact ⟨start, hle, hstart, hfirst, hfound⟩
    · obtain ⟨k, hk, hsize, hrestart, hattempt⟩ := hrest.attempts a ha
      exact ⟨k, by omega, hsize, hrestart, hattempt⟩
  · obtain ⟨k, hk, -, hrestart, -⟩ := hrest.attempts b hb
    omega
  · by_cases hbefore : k < start
    · exact absurd (hnone k hk hbefore) hsome
    by_cases hinside : k < max stop (start + 1)
    · exact ⟨found, List.mem_cons_self, by omega⟩
    · obtain ⟨a, ha, hcovers⟩ := hrest.complete k (by omega) hsize hsome
      exact ⟨a, List.mem_cons_of_mem _ ha, hcovers⟩
  · have := hrest.length_le
    rw [List.length_cons]
    omega

theorem matchesFrom_of_none (h : offset ≤ input.size)
    (hfind : (m.find input offset).result = .ok none) (most : Option Nat) :
    (m.matchesFrom input offset most).result = .ok [] := by
  rw [matchesFrom, if_pos (by omega), Traced.result_bind hfind]
  rfl

theorem matchesFrom_of_size_lt (h : input.size < offset) (most : Option Nat) :
    (m.matchesFrom input offset most).result = .ok [] := by
  rw [matchesFrom, if_neg (by omega)]
  rfl

theorem matchesFrom_of_some (h : offset ≤ input.size)
    (hfind : (m.find input offset).result = .ok (some found)) (hnext : offset < found.next)
    (hrest : (m.matchesFrom input found.next none).result = .ok rest) :
    (m.matchesFrom input offset none).result = .ok (found :: rest) := by
  rw [matchesFrom, if_pos (by omega), Traced.result_bind hfind]
  dsimp only
  rw [if_pos ⟨hnext, rfl⟩]
  exact Traced.result_bind hrest

/-- The searches that follow one another end, and what they find is a succession of matches. -/
theorem exists_matchesFrom (m : Matcher) (hlimit : m.limits.maxSteps = none) (input : Text)
    (offset : Nat) :
    ∃ found, (m.matchesFrom input offset none).result = .ok found ∧
      m.Succession input offset found := by
  induction hn : input.size + 1 - offset using Nat.strongRecOn generalizing offset with
  | _ n ih =>
    by_cases h : offset ≤ input.size
    · obtain ⟨r, hfind, hleftmost⟩ := exists_find hlimit h
      cases hleftmost with
      | none hnone => exact ⟨[], matchesFrom_of_none h hfind none, succession_nil hnone⟩
      | @some start found hle hstart hfound hnone =>
        obtain ⟨stop, -, hstop, -⟩ := ends_of_attempt hstart hfound
        have hnext := next_of_attempt hstart hfound hstop
        obtain ⟨rest, hrest, hsuccession⟩ := ih _ (by omega) (max stop (start + 1)) rfl
        exact ⟨found :: rest, matchesFrom_of_some h hfind (by omega) (hnext ▸ hrest),
          .cons hle hstart hfound hnone hstop hsuccession⟩
    · exact ⟨[], matchesFrom_of_size_lt (by omega) none, succession_nil fun k hle hk ↦ by omega⟩

/-- Without a limit, the matches of an input come to an end, at most one for each place of the
input. They are in order and do not overlap, an attempt at its start finds each of them, and no
place where an attempt succeeds is left out. -/
theorem matchAll_succession (m : Matcher) (hlimit : m.limits.maxSteps = none) (input : Text) :
    ∃ found, (m.matchAll input none).result = .ok found ∧ found.length ≤ input.size + 1 ∧
      (found.Pairwise fun a b ↦ a.stop ≤ b.start ∧ (a.stop = a.start → a.stop < b.start)) ∧
      (∀ a ∈ found, ∃ start : Nat, start ≤ input.size ∧ a.start = start ∧
        m.attempt input start = .ok (some a)) ∧
      ∀ k : Nat, k ≤ input.size → m.attempt input k ≠ .ok none →
        ∃ a ∈ found, a.start = k ∨ a.start < k ∧ k < a.stop := by
  obtain ⟨found, hresult, hsuccession⟩ := m.exists_matchesFrom hlimit input 0
  refine ⟨found, hresult, hsuccession.length_le, hsuccession.ordered, fun a ha ↦ ?_,
    fun k hk ↦ hsuccession.complete k (Nat.zero_le k) hk⟩
  obtain ⟨start, -, hattempt⟩ := hsuccession.attempts a ha
  exact ⟨start, hattempt⟩

end Matcher

theorem matchAll_nullableLoop :
    nullableLoopMatcher.limits.maxSteps = none ∧
      ∃ found, (nullableLoopMatcher.matchAll #['a', 'b'] none).result = .ok found ∧
        found.length ≤ 3 ∧ ∃ a ∈ found, a.start = 0 := by
  obtain ⟨found, hresult, hlength, -, hattempts, hcomplete⟩ :=
    nullableLoopMatcher.matchAll_succession rfl #['a', 'b']
  have hsome : nullableLoopMatcher.attempt #['a', 'b'] 0 ≠ .ok none := fun hnone ↦ by
    rcases nullableLoopMatcher.attempt_cases (Nat.zero_le _) with ⟨-, hspans⟩ | ⟨a, ha⟩
    · exact hspans 2 (nullableLoop_spans 0)
    · cases hnone.symm.trans ha
  obtain ⟨a, ha, hcovers⟩ := hcomplete 0 (Nat.zero_le _) hsome
  obtain ⟨start, -, hstart, -⟩ := hattempts a ha
  exact ⟨rfl, found, hresult, hlength, a, ha, by omega⟩

end ExtendedRegex
