import ExtendedRegex.Proofs.Attempts

/-!
The pieces of an input between matches. Splitting jumps from one leftmost match to the next, and
the pieces are those of the plain walk that attempts a match at every place, one after another, and
cuts wherever a match ends somewhere else than where the piece starts.
-/

set_option autoImplicit false
set_option relaxedAutoImplicit false

namespace ExtendedRegex

namespace Matcher

/-- The walk over the places of an input, with the place where the next piece starts. -/
inductive Walk (m : Matcher) (input : Text) : Nat → Nat → List Text → Prop
  | finish {last offset : Nat} : input.size ≤ offset → Walk m input last offset [input.sliceFrom last]
  /-- There is no match here, or only one that ends where the piece starts. -/
  | pass {last offset : Nat} {pieces : List Text} : offset < input.size →
    (m.attempt input offset = .ok none ∨
      ∃ found, m.attempt input offset = .ok (some found) ∧ found.stop = last) →
    Walk m input last (offset + 1) pieces → Walk m input last offset pieces
  /-- A match ends the piece, and the next one starts where the match ends. -/
  | cut {last offset stop : Nat} {found : Match} {pieces : List Text} : offset < input.size →
    m.attempt input offset = .ok (some found) → found.stop = stop → stop ≠ last →
    Walk m input stop stop pieces → Walk m input last offset (input.slice last offset :: pieces)

variable {m : Matcher} {input : Text} {last offset start stop : Nat} {found : Match}
  {pieces pieces' : List Text} {most : Option Nat}

/-- The walk goes one way only. -/
theorem Walk.unique (h : m.Walk input last offset pieces) (h' : m.Walk input last offset pieces') :
    pieces' = pieces := by
  induction h generalizing pieces' with
  | finish hsize =>
    cases h' with
    | finish => rfl
    | pass hlt | cut hlt => omega
  | pass hlt hpass _ ih =>
    cases h' with
    | finish => omega
    | pass _ _ hrest => exact ih hrest
    | cut _ hfound hstop hne =>
      rcases hpass with hnone | ⟨found, hfound', hstop'⟩
      · cases hnone.symm.trans hfound
      · cases hfound'.symm.trans hfound
        omega
  | cut hlt hfound hstop hne _ ih =>
    cases h' with
    | finish => omega
    | pass _ hpass =>
      rcases hpass with hnone | ⟨found, hfound', hstop'⟩
      · cases hnone.symm.trans hfound
      · cases hfound'.symm.trans hfound
        omega
    | cut _ hfound' hstop' _ hrest =>
      cases hfound'.symm.trans hfound
      obtain rfl := Int.ofNat_inj.mp (hstop'.symm.trans hstop)
      rw [ih hrest]

/-- Places without a match are passed over. -/
theorem Walk.skip (hle : offset ≤ start) (hstart : start ≤ input.size)
    (hnone : ∀ k, offset ≤ k → k < start → m.attempt input k = .ok none)
    (h : m.Walk input last start pieces) : m.Walk input last offset pieces := by
  induction hd : start - offset generalizing offset with
  | zero =>
    obtain rfl : start = offset := by omega
    exact h
  | succ d ih =>
    have hrest :=
      ih (show offset + 1 ≤ start by omega) (fun k hk ↦ hnone k (by omega)) (by omega)
    exact .pass (by omega) (Or.inl (hnone offset (Nat.le_refl _) (by omega))) hrest

theorem Walk.ends (hle : offset ≤ input.size)
    (hnone : ∀ k, offset ≤ k → k < input.size → m.attempt input k = .ok none) :
    m.Walk input last offset [input.sliceFrom last] :=
  .skip hle (Nat.le_refl _) hnone (.finish (Nat.le_refl _))

/-! ### Jumps from match to match -/

theorem piecesFrom_of_size_le (h : input.size ≤ offset) :
    (m.piecesFrom input last offset most).result = .ok [input.sliceFrom last] := by
  rw [piecesFrom, if_neg (by omega)]
  rfl

theorem piecesFrom_of_none (h : offset < input.size)
    (hfind : (m.find input offset).result = .ok none) :
    (m.piecesFrom input last offset most).result = .ok [input.sliceFrom last] := by
  rw [piecesFrom, if_pos (by omega), Traced.result_bind hfind]
  rfl

/-- A match at the end of the input does not separate. -/
theorem piecesFrom_of_size_le_start (h : offset < input.size)
    (hfind : (m.find input offset).result = .ok (some found)) (hstart : input.size ≤ found.start) :
    (m.piecesFrom input last offset most).result = .ok [input.sliceFrom last] := by
  rw [piecesFrom, if_pos (by omega), Traced.result_bind hfind]
  dsimp only
  rw [if_pos hstart]
  rfl

/-- A match that ends where the piece starts does not separate. -/
theorem piecesFrom_of_stop_eq (h : offset < input.size)
    (hfind : (m.find input offset).result = .ok (some found)) (hstart : found.start < input.size)
    (hle : offset ≤ found.start) (hstop : found.stop = last) :
    (m.piecesFrom input last offset most).result =
      (m.piecesFrom input last (found.start + 1) most).result := by
  rw [piecesFrom, if_pos (by omega), Traced.result_bind hfind]
  dsimp only
  rw [if_neg (by omega), if_pos hstop, if_pos (by omega)]

/-- Some of the pieces, if there is a limit to their number. -/
def upTo (most : Option Nat) (pieces : List Text) : List Text :=
  match most with
  | some n => pieces.take n
  | none => pieces

theorem upTo_singleton (h : most ≠ some 0) (piece : Text) : upTo most [piece] = [piece] := by
  match most with
  | none => rfl
  | some (n + 1) => simp [upTo]
  | some 0 => exact absurd rfl h

/-- A match that ends elsewhere ends a piece, and other pieces follow if the limit allows them. -/
theorem piecesFrom_of_stop_ne (h : offset < input.size)
    (hfind : (m.find input offset).result = .ok (some found)) (hstart : found.start < input.size)
    (hstop : found.stop ≠ last) (hnext : offset < found.next) (hmost : most ≠ some 0)
    (hrest : ∀ most', most' ≠ some 0 →
      (m.piecesFrom input found.stop found.next most').result = .ok (upTo most' pieces)) :
    (m.piecesFrom input last offset most).result =
      .ok (upTo most (input.slice last found.start :: pieces)) := by
  rw [piecesFrom, if_pos (by omega), Traced.result_bind hfind]
  dsimp only
  rw [if_neg (by omega), if_neg hstop]
  match most with
  | none =>
    rw [if_pos ⟨hnext, rfl⟩]
    exact Traced.result_bind (hrest none (by simp))
  | some 0 => exact absurd rfl hmost
  | some 1 =>
    rw [if_neg (by simp)]
    rfl
  | some (n + 2) =>
    rw [if_pos ⟨hnext, by simp⟩]
    exact Traced.result_bind (hrest (some (n + 1)) (by simp))

/-- Without a limit on the steps, the pieces from a place on are those of the walk from there. -/
theorem exists_walk (m : Matcher) (hlimit : m.limits.maxSteps = none) (input : Text)
    (hlast : last ≤ offset) :
    ∃ pieces, m.Walk input last offset pieces ∧ ∀ most, most ≠ some 0 →
      (m.piecesFrom input last offset most).result = .ok (upTo most pieces) := by
  induction hn : input.size - offset using Nat.strongRecOn generalizing last offset with
  | _ n ih =>
    by_cases h : offset < input.size
    swap
    · refine ⟨_, .finish (by omega), fun most hmost ↦ ?_⟩
      rw [piecesFrom_of_size_le (by omega), upTo_singleton hmost]
    obtain ⟨r, hfind, hleftmost⟩ := exists_find hlimit h.le
    cases hleftmost with
    | none hnone =>
      refine ⟨_, .ends h.le fun k hle hk ↦ hnone k hle hk.le, fun most hmost ↦ ?_⟩
      rw [piecesFrom_of_none h hfind, upTo_singleton hmost]
    | @some start found hle hstart hfound hnone =>
      obtain ⟨stop, hfirst, hstop, hbelow, -, -⟩ := ends_of_attempt hstart hfound
      have hnext := next_of_attempt hstart hfound hstop
      by_cases hend : start < input.size
      swap
      · obtain rfl : start = input.size := by omega
        refine ⟨_, .ends h.le hnone, fun most hmost ↦ ?_⟩
        rw [piecesFrom_of_size_le_start h hfind (by omega), upTo_singleton hmost]
      by_cases hempty : stop = last
      · obtain ⟨pieces, hwalk, hpieces⟩ := ih _ (by omega) (show last ≤ start + 1 by omega) rfl
        have hpass := Walk.pass hend (Or.inr ⟨found, hfound, by omega⟩) hwalk
        refine ⟨pieces, hpass.skip hle hstart hnone, fun most hmost ↦ ?_⟩
        rw [piecesFrom_of_stop_eq h hfind (by omega) (by omega) (by omega), hfirst]
        exact hpieces most hmost
      · obtain ⟨pieces, hwalk, hpieces⟩ :=
          ih _ (by omega) (show stop ≤ max stop (start + 1) by omega) rfl
        -- At an empty match, the walk attempts the same place once more and passes on.
        have hrest : m.Walk input stop stop pieces := by
          by_cases hmoves : start < stop
          · rwa [Nat.max_eq_left hmoves] at hwalk
          · obtain rfl : stop = start := by omega
            rw [Nat.max_eq_right (Nat.le_succ _)] at hwalk
            exact .pass hend (Or.inr ⟨found, hfound, hstop⟩) hwalk
        have hcut : m.Walk input last start _ := .cut hend hfound hstop hempty hrest
        refine ⟨_, hcut.skip hle hstart hnone, fun most hmost ↦ ?_⟩
        rw [piecesFrom_of_stop_ne h hfind (by omega) (by omega) (by omega) hmost, hfirst]
        intro most' hmost'
        rw [hstop, hnext]
        exact hpieces most' hmost'

/-! ### Splitting -/

/-- How many pieces a limit allows; a negative limit allows any number. -/
def allowed (limit : Option Int) : Option Nat :=
  limit.bind fun n ↦ if n < 0 then none else some n.toNat

theorem allowed_eq_zero_iff {limit : Option Int} : allowed limit = some 0 ↔ limit = some 0 := by
  cases limit with
  | none => simp [allowed]
  | some n =>
    simp only [allowed, Option.bind_some, Option.some.injEq]
    split
    · simp; omega
    · simp; omega

theorem upTo_allowed (limit : Option Int) (pieces : List Text) :
    upTo (allowed limit) pieces = match limit with
      | some n => if n < 0 then pieces else pieces.take n.toNat
      | none => pieces := by
  cases limit with
  | none => rfl
  | some n =>
    simp only [allowed, Option.bind_some]
    split <;> rfl

theorem split_eq (m : Matcher) (input : Text) (limit : Option Int) :
    m.split input limit =
      if allowed limit = some 0 then return []
      else if input.isEmpty then do return if ← m.test input then [] else [input]
      else m.piecesFrom input 0 0 (allowed limit) :=
  rfl

theorem split_of_zero (input : Text) {limit : Option Int} (h : allowed limit = some 0) :
    (m.split input limit).result = .ok [] := by
  rw [split_eq, if_pos h]
  rfl

theorem split_of_ne_zero {limit : Option Int} (hinput : input.size ≠ 0)
    (h : allowed limit ≠ some 0) :
    m.split input limit = m.piecesFrom input 0 0 (allowed limit) := by
  rw [split_eq, if_neg h, if_neg (by simpa [Array.isEmpty] using hinput)]

/-- The empty input is no piece if there is a match in it. -/
theorem split_empty {limit : Option Int} {r : Option Match} (h : allowed limit ≠ some 0)
    (hfind : (m.find #[] 0).result = .ok r) :
    (m.split #[] limit).result = .ok (if r.isSome then [] else [#[]]) := by
  have htest : (m.test #[]).result = .ok r.isSome := Traced.result_bind hfind
  rw [split_eq, if_neg h, if_pos Array.isEmpty_empty]
  exact Traced.result_bind htest

theorem exists_split_empty (hlimit : m.limits.maxSteps = none) {limit : Option Int}
    (h : allowed limit ≠ some 0) :
    ∃ pieces, (m.split #[] limit).result = .ok pieces ∧
      (m.tree.Spans #[] 0 0 0 → pieces = []) ∧ (¬ m.tree.Spans #[] 0 0 0 → pieces = [#[]]) := by
  have hsize : 0 ≤ (#[] : Text).size := Nat.le_refl 0
  obtain ⟨r, hfind, hleftmost⟩ := exists_find hlimit hsize
  refine ⟨_, split_empty h hfind, ?_⟩
  cases hleftmost with
  | none hnone =>
    rcases m.attempt_cases hsize with ⟨-, hspans⟩ | ⟨found, hfound⟩
    · exact ⟨fun hmatch ↦ absurd hmatch (hspans 0), fun _ ↦ rfl⟩
    · cases (hnone 0 (Nat.le_refl 0) hsize).symm.trans hfound
  | @some start found hle hstart hfound =>
    obtain rfl : start = 0 := Nat.le_zero.mp hstart
    obtain ⟨stop, -, -, -, hstop, hspans⟩ := ends_of_attempt hstart hfound
    obtain rfl : stop = 0 := Nat.le_zero.mp hstop
    exact ⟨fun _ ↦ rfl, fun hnone ↦ absurd hspans hnone⟩

/-- Without a limit on the steps, an input that is not empty is split into the pieces of the walk
that attempts a match at every place, or into the first of them. The empty input has no piece if
none is asked for or if the pattern matches it, and one empty piece otherwise. -/
theorem split_walk (m : Matcher) (hlimit : m.limits.maxSteps = none) (limit : Option Int) :
    (∀ input : Text, input.size ≠ 0 →
      ∃ pieces, (∀ pieces', m.Walk input 0 0 pieces' ↔ pieces' = pieces) ∧
        (m.split input limit).result = .ok (match limit with
          | some n => if n < 0 then pieces else pieces.take n.toNat
          | none => pieces)) ∧
    ∃ pieces, (m.split #[] limit).result = .ok pieces ∧
      (limit = some 0 ∨ m.tree.Spans #[] 0 0 0 → pieces = []) ∧
      (¬ (limit = some 0 ∨ m.tree.Spans #[] 0 0 0) → pieces = [#[]]) := by
  constructor
  · intro input hinput
    obtain ⟨pieces, hwalk, hpieces⟩ := m.exists_walk hlimit input (Nat.le_refl 0)
    refine ⟨pieces, fun pieces' ↦ ⟨fun h ↦ hwalk.unique h, fun h ↦ h ▸ hwalk⟩, ?_⟩
    rw [← upTo_allowed]
    by_cases h : allowed limit = some 0
    · rw [split_of_zero input h, h]
      rfl
    · rw [split_of_ne_zero hinput h]
      exact hpieces _ h
  · by_cases h : allowed limit = some 0
    · exact ⟨[], split_of_zero _ h, fun _ ↦ rfl,
        fun hne ↦ absurd (Or.inl (allowed_eq_zero_iff.mp h)) hne⟩
    · have hzero : limit ≠ some 0 := mt allowed_eq_zero_iff.mpr h
      simpa [hzero] using exists_split_empty hlimit h

end Matcher

theorem attempt_lastLetter :
    lastLetterMatcher.attempt #['a', 'b'] 0 = .ok none ∧
      lastLetterMatcher.attempt #['a', 'b'] 1 =
        .ok (some ⟨#['a', 'b'], #[some ⟨1, 2⟩]⟩) := by
  have hattempt : ∀ offset, lastLetterMatcher.attempt #['a', 'b'] offset =
      (lastLetter.compile.searchAt #['a', 'b'] offset ⟨some 0, none⟩).map
        (Option.map (.ofFound #['a', 'b'])) := fun _ ↦ rfl
  have hsize : 1 ≤ (#['a', 'b'] : Text).size := by decide
  rw [hattempt, hattempt, Regex.compile_eq]
  exact ⟨congrArg _ (Program.searchAt_of_explore_slots none (Nat.zero_le _) (by cbv)),
    congrArg _ (Program.searchAt_of_explore_slots (some #[some 1, some 2]) hsize (by cbv))⟩

/-- Splitting `ab` at `b$` leaves an empty piece behind the match. -/
theorem split_lastLetter :
    lastLetterMatcher.limits.maxSteps = none ∧
      (lastLetterMatcher.split #['a', 'b'] none).result = .ok [#['a'], #[]] := by
  obtain ⟨hpieces, -⟩ := lastLetterMatcher.split_walk rfl none
  obtain ⟨pieces, hwalk, hsplit⟩ := hpieces #['a', 'b'] (by decide)
  have hend : lastLetterMatcher.Walk #['a', 'b'] 2 2 [#[]] := .finish (by decide)
  have hcut : lastLetterMatcher.Walk #['a', 'b'] 0 1 [#['a'], #[]] :=
    .cut (by decide) attempt_lastLetter.2 rfl (by decide) hend
  obtain rfl := (hwalk _).mp (.pass (by decide) (Or.inl attempt_lastLetter.1) hcut)
  exact ⟨rfl, hsplit⟩

end ExtendedRegex
