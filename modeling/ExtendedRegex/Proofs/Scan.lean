import ExtendedRegex.Proofs.Exploration
import Mathlib.Data.Nat.Find

/-!
The scan over all starts with one table. An attempt that fails leaves a table in which no state
reaches acceptance, so the attempts after it find what they would find on their own.
-/

set_option autoImplicit false
set_option relaxedAutoImplicit false

namespace ExtendedRegex

theorem exists_of_map_eq_ok {ε α β : Type} {x : Except ε α} {f : α → β} {b : β}
    (h : x.map f = .ok b) : ∃ a, x = .ok a ∧ f a = b := by
  cases x with
  | error e => cases h
  | ok a => exact ⟨a, rfl, Except.ok.inj h⟩

/-- The spans of the groups one by one. -/
theorem Slots.found_eq (slots : Slots) (groupCount : Nat) :
    slots.found groupCount =
      ⟨slots.get 0, slots.get 1, ((List.range groupCount).map slots.span).toArray⟩ := by
  rw [found, ← List.toArray_range, List.map_toArray]

namespace Program

variable {p : Program} {subject : Text} {anchor : Int} {seen : StateSet} {steps position : Nat}

/-- One attempt: it ends the scan, or leaves a table for the next one in which no state reaches
acceptance. -/
theorem scan_step (hp : p.WellFormed) (hfits : p.Fits subject seen)
    (hblocked : p.Blocked subject anchor seen []) (steps : Nat) (h : position ≤ subject.size) :
    ∃ r, p.Outcome subject anchor List.Nodup [p.start position] r ∧
      match r with
      | some slots => p.scan subject anchor none seen steps position = .ok (some slots)
      | none => ∃ seen' steps', p.Fits subject seen' ∧ p.Blocked subject anchor seen' [] ∧
          p.scan subject anchor none seen steps position =
            p.scan subject anchor none seen' steps' (position + 1) := by
  obtain ⟨r, seen', steps', hexplore, houtcome, hexhausted⟩ :=
    explore_start hp hfits hblocked steps h
  refine ⟨r, houtcome, ?_⟩
  rw [scan, if_neg (Nat.not_lt.mpr h), hexplore]
  cases r with
  | some slots => rfl
  | none => exact ⟨seen', steps', (hexhausted rfl).fits, (hexhausted rfl).blocked, rfl⟩

/-- The scan passes over the starts without a run, whatever the failed attempts have put into the
table. -/
theorem scan_pass (hp : p.WellFormed) {stop : Nat} (hfits : p.Fits subject seen)
    (hblocked : p.Blocked subject anchor seen []) (steps : Nat) (hle : position ≤ stop)
    (hstop : stop ≤ subject.size + 1)
    (hnone : ∀ k, position ≤ k → k < stop →
      p.Outcome subject anchor List.Nodup [p.start k] none) :
    ∃ seen' steps', p.Fits subject seen' ∧ p.Blocked subject anchor seen' [] ∧
      p.scan subject anchor none seen steps position =
        p.scan subject anchor none seen' steps' stop := by
  induction hd : stop - position generalizing seen steps position with
  | zero =>
    obtain rfl : position = stop := by omega
    exact ⟨seen, steps, hfits, hblocked, rfl⟩
  | succ d ih =>
    obtain ⟨r, houtcome, hscan⟩ :=
      scan_step hp hfits hblocked steps (show position ≤ subject.size by omega)
    obtain rfl := houtcome.unique (hnone position (Nat.le_refl _) (by omega))
    obtain ⟨seen₁, steps₁, hfits₁, hblocked₁, hscan₁⟩ := hscan
    obtain ⟨seen₂, steps₂, hfits₂, hblocked₂, hscan₂⟩ :=
      ih hfits₁ hblocked₁ steps₁ (show position + 1 ≤ stop by omega)
        (fun k hk ↦ hnone k (by omega)) (by omega)
    exact ⟨seen₂, steps₂, hfits₂, hblocked₂, hscan₁.trans hscan₂⟩

theorem scan_eq_some (hp : p.WellFormed) {k : Nat} {slots : Slots} (hk : k ≤ subject.size)
    (hle : position ≤ k) (hsome : p.Outcome subject anchor List.Nodup [p.start k] (some slots))
    (hnone : ∀ k', position ≤ k' → k' < k → p.Outcome subject anchor List.Nodup [p.start k'] none) :
    p.scan subject anchor none (p.states subject) 0 position = .ok (some slots) := by
  obtain ⟨seen, steps, hfits, hblocked, hscan⟩ :=
    scan_pass hp fits_states (blocked_states anchor) 0 hle (by omega) hnone
  obtain ⟨r, houtcome, hstep⟩ := scan_step hp hfits hblocked steps hk
  obtain rfl := houtcome.unique hsome
  exact hscan.trans hstep

theorem scan_eq_none (hp : p.WellFormed) (hle : position ≤ subject.size)
    (hnone : ∀ k, position ≤ k → k ≤ subject.size →
      p.Outcome subject anchor List.Nodup [p.start k] none) :
    p.scan subject anchor none (p.states subject) 0 position = .ok none := by
  obtain ⟨seen, steps, -, -, hscan⟩ :=
    scan_pass hp fits_states (blocked_states anchor) 0 (show position ≤ subject.size + 1 by omega)
      (Nat.le_refl _) (fun k hk hlt ↦ hnone k hk (Nat.le_of_lt_succ hlt))
  rw [hscan, scan, if_pos (Nat.lt_succ_self _)]

theorem scan_of_limited {limit : Option Int} {slots : Slots}
    (h : p.scan subject anchor limit seen steps position = .ok (some slots)) :
    p.scan subject anchor none seen steps position = .ok (some slots) := by
  fun_induction p.scan subject anchor limit seen steps position with
  | case1 | case2 => cases h
  | case3 seen steps position hle slots' seen' steps' hexplore =>
    rw [scan, if_neg hle, explore_of_limited hexplore]
    exact h
  | case4 seen steps position hle seen' steps' hexplore ih =>
    rw [scan, if_neg hle, explore_of_limited hexplore]
    exact ih h

theorem search_outside {origin : Int} {options : SearchOptions}
    (h : origin < 0 ∨ (subject.size : Int) < origin) : p.search subject origin options = .ok none := by
  rw [search, if_pos h]
  rfl

theorem searchAt_outside {origin : Int} {options : SearchOptions}
    (h : origin < 0 ∨ (subject.size : Int) < origin) :
    p.searchAt subject origin options = .ok none := by
  rw [searchAt, if_pos h]
  rfl

/-- What is found from an offset inside the subject, read off the scan over the starts. -/
theorem search_eq_scan {options : SearchOptions} (h : position ≤ subject.size) :
    p.search subject position options =
      (p.scan subject (options.anchor.getD position) options.maxSteps (p.states subject) 0
        position).map (Option.map (·.found p.groupCount)) := by
  have hinside : ¬ ((position : Int) < 0 ∨ (subject.size : Int) < position) := by omega
  rw [search, if_neg hinside, Int.toNat_natCast]
  dsimp only
  cases p.scan subject (options.anchor.getD position) options.maxSteps (p.states subject) 0
    position <;> rfl

theorem searchAt_eq_explore {options : SearchOptions} (h : position ≤ subject.size) :
    p.searchAt subject position options =
      (p.explore subject (options.anchor.getD position) options.maxSteps (p.states subject) 0
        [p.start position]).map fun explored ↦ explored.slots.map (·.found p.groupCount) := by
  have hinside : ¬ ((position : Int) < 0 ∨ (subject.size : Int) < position) := by omega
  rw [searchAt, if_neg hinside, Int.toNat_natCast]
  dsimp only
  cases p.explore subject (options.anchor.getD position) options.maxSteps (p.states subject) 0
    [p.start position] <;> rfl

theorem search_of_scan_slots {options : SearchOptions} (slots : Slots)
    (h : position ≤ subject.size)
    (hscan : p.scan subject (options.anchor.getD position) options.maxSteps (p.states subject) 0
      position = .ok (some slots)) :
    p.search subject position options = .ok (some ⟨slots.get 0, slots.get 1,
      ((List.range p.groupCount).map slots.span).toArray⟩) := by
  rw [search_eq_scan h, hscan, ← Slots.found_eq]
  rfl

theorem searchAt_of_explore_slots {options : SearchOptions} (slots : Option Slots)
    (h : position ≤ subject.size)
    (hexplore : (p.explore subject (options.anchor.getD position) options.maxSteps
      (p.states subject) 0 [p.start position]).map (·.slots) = .ok slots) :
    p.searchAt subject position options = .ok (slots.map fun slots ↦
      ⟨slots.get 0, slots.get 1, ((List.range p.groupCount).map slots.span).toArray⟩) := by
  obtain ⟨explored, hexplored, rfl⟩ := exists_of_map_eq_ok hexplore
  rw [searchAt_eq_explore h, hexplored]
  simp only [← Slots.found_eq]
  rfl

theorem search_of_scan {k : Nat} {slots : Option Slots} (hk : k ≤ subject.size)
    (hscan : p.scan subject anchor none (p.states subject) 0 k = .ok slots) :
    p.search subject k ⟨some anchor, none⟩ = .ok (slots.map (·.found p.groupCount)) := by
  rw [search_eq_scan hk, Option.getD_some, hscan]
  rfl

/-- An attempt at one start gives the slots of the preferred run that enters no state twice. -/
theorem searchAt_of_outcome (hp : p.WellFormed) {k : Nat} {r : Option Slots}
    (hk : k ≤ subject.size) (houtcome : p.Outcome subject anchor List.Nodup [p.start k] r) :
    p.searchAt subject k ⟨some anchor, none⟩ = .ok (r.map (·.found p.groupCount)) := by
  obtain ⟨r', seen, steps, hexplore, houtcome', -⟩ :=
    explore_start hp fits_states (blocked_states anchor) 0 hk
  obtain rfl := houtcome'.unique houtcome
  rw [searchAt_eq_explore hk, Option.getD_some, hexplore]
  rfl

theorem exists_outcome (hp : p.WellFormed) (anchor : Int) {k : Nat} (hk : k ≤ subject.size) :
    ∃ r, p.Outcome subject anchor List.Nodup [p.start k] r := by
  obtain ⟨r, -, -, -, houtcome, -⟩ :=
    explore_start hp fits_states (blocked_states anchor) 0 hk
  exact ⟨r, houtcome⟩

/-- Among the starts from an origin on, none has a run, or one of them is the first that has. -/
theorem exists_first_outcome (hp : p.WellFormed) (anchor : Int) (origin : Nat) :
    (∀ k, origin ≤ k → k ≤ subject.size → p.Outcome subject anchor List.Nodup [p.start k] none) ∨
      ∃ k slots, origin ≤ k ∧ k ≤ subject.size ∧
        p.Outcome subject anchor List.Nodup [p.start k] (some slots) ∧
        ∀ k', origin ≤ k' → k' < k → p.Outcome subject anchor List.Nodup [p.start k'] none := by
  classical
  have hnone : ∀ k ≤ subject.size,
      (¬ ∃ slots, p.Outcome subject anchor List.Nodup [p.start k] (some slots)) →
        p.Outcome subject anchor List.Nodup [p.start k] none := by
    intro k hk hslots
    obtain ⟨r, houtcome⟩ := exists_outcome hp anchor hk
    cases r with
    | none => exact houtcome
    | some slots => exact absurd ⟨slots, houtcome⟩ hslots
  by_cases hexists : ∃ k, origin ≤ k ∧ k ≤ subject.size ∧
      ∃ slots, p.Outcome subject anchor List.Nodup [p.start k] (some slots)
  · obtain ⟨hle, hk, slots, hsome⟩ := Nat.find_spec hexists
    refine Or.inr ⟨Nat.find hexists, slots, hle, hk, hsome, fun k' hle' hlt ↦ ?_⟩
    exact hnone k' (by omega) fun hslots ↦
      Nat.find_min hexists hlt ⟨hle', by omega, hslots⟩
  · exact Or.inl fun k hle hk ↦ hnone k hk fun hslots ↦ hexists ⟨k, hle, hk, hslots⟩

/-- A scan ends with nothing, or with the slots of a run from a start it comes to. -/
theorem scan_cases (hp : p.WellFormed) (anchor : Int) (h : position ≤ subject.size) :
    p.scan subject anchor none (p.states subject) 0 position = .ok none ∨
      ∃ start slots, p.scan subject anchor none (p.states subject) 0 position = .ok (some slots) ∧
        position ≤ start ∧ start ≤ subject.size ∧
        p.Outcome subject anchor List.Nodup [p.start start] (some slots) := by
  rcases exists_first_outcome hp anchor position with
    hnone | ⟨start, slots, hle, hstart, hsome, hnone⟩
  · exact Or.inl (scan_eq_none hp h hnone)
  · exact Or.inr ⟨start, slots, scan_eq_some hp hstart hle hsome hnone, hle, hstart, hsome⟩

/-- What a search finds, with a limit or without, goes with a run from a start it comes to. -/
theorem outcome_of_search (hp : p.WellFormed) {origin : Int} {options : SearchOptions}
    {found : Found} (h : p.search subject origin options = .ok (some found)) :
    ∃ (start : Nat) (slots : Slots), origin ≤ start ∧ start ≤ subject.size ∧
      found = slots.found p.groupCount ∧
      p.Outcome subject (options.anchor.getD origin) List.Nodup [p.start start] (some slots) := by
  by_cases houtside : origin < 0 ∨ (subject.size : Int) < origin
  · cases (search_outside houtside).symm.trans h
  obtain ⟨origin, rfl⟩ := Int.eq_ofNat_of_zero_le (show 0 ≤ origin by omega)
  have horigin : origin ≤ subject.size := by omega
  rw [search_eq_scan horigin] at h
  obtain ⟨r, hscan, hr⟩ := exists_of_map_eq_ok h
  obtain ⟨slots, rfl, rfl⟩ := Option.map_eq_some_iff.mp hr
  have hscan' := scan_of_limited hscan
  rcases scan_cases hp (options.anchor.getD origin) horigin with
    hnone | ⟨start, slots', hsome, hle, hstart, houtcome⟩
  · cases hscan'.symm.trans hnone
  · obtain rfl := Option.some.inj (Except.ok.inj (hscan'.symm.trans hsome))
    exact ⟨start, slots, Int.ofNat_le.mpr hle, hstart, rfl, houtcome⟩

/-- What an attempt finds, with a limit or without, goes with a run from its start. -/
theorem outcome_of_searchAt (hp : p.WellFormed) {start : Int} {options : SearchOptions}
    {found : Found} (h : p.searchAt subject start options = .ok (some found)) :
    ∃ slots, 0 ≤ start ∧ start ≤ subject.size ∧ found = slots.found p.groupCount ∧
      p.Outcome subject (options.anchor.getD start) List.Nodup [p.start start.toNat]
        (some slots) := by
  by_cases houtside : start < 0 ∨ (subject.size : Int) < start
  · cases (searchAt_outside houtside).symm.trans h
  obtain ⟨start, rfl⟩ := Int.eq_ofNat_of_zero_le (show 0 ≤ start by omega)
  have hstart : start ≤ subject.size := by omega
  rw [searchAt_eq_explore hstart] at h
  obtain ⟨explored, hexplore, hfound⟩ := exists_of_map_eq_ok h
  obtain ⟨slots, hslots, rfl⟩ := Option.map_eq_some_iff.mp hfound
  obtain ⟨r, seen, steps, hexplored, houtcome, -⟩ :=
    explore_start hp fits_states (blocked_states (options.anchor.getD start)) 0 hstart
  obtain rfl := Except.ok.inj (hexplored.symm.trans (explore_of_limited hexplore))
  obtain rfl : r = some slots := hslots
  exact ⟨slots, by omega, by omega, rfl, houtcome⟩

/-- The search from an origin finds what a fresh attempt finds at the first start where one
succeeds. It finds the same from every origin up to that start, and nothing only if all fresh
attempts fail. -/
theorem search_first_searchAt (hp : p.WellFormed) (anchor : Int) {origin : Int} (h : 0 ≤ origin)
    (hsize : origin ≤ subject.size) :
    (p.search subject origin ⟨some anchor, none⟩ = .ok none ∧
        ∀ k : Int, origin ≤ k → k ≤ subject.size →
          p.searchAt subject k ⟨some anchor, none⟩ = .ok none) ∨
      ∃ (k : Int) (found : Found), origin ≤ k ∧ k ≤ subject.size ∧
        p.searchAt subject k ⟨some anchor, none⟩ = .ok (some found) ∧
        (∀ k', origin ≤ k' → k' < k → p.searchAt subject k' ⟨some anchor, none⟩ = .ok none) ∧
        ∀ origin', origin ≤ origin' → origin' ≤ k →
          p.search subject origin' ⟨some anchor, none⟩ = .ok (some found) := by
  obtain ⟨origin, rfl⟩ := Int.eq_ofNat_of_zero_le h
  have horigin : origin ≤ subject.size := Int.ofNat_le.mp hsize
  rcases exists_first_outcome hp anchor origin with
    hnone | ⟨k, slots, hle, hk, hsome, hnone⟩
  · refine Or.inl ⟨search_of_scan horigin (scan_eq_none hp horigin hnone), fun k hle hk ↦ ?_⟩
    obtain ⟨k, rfl⟩ := Int.eq_ofNat_of_zero_le (Int.le_trans h hle)
    exact searchAt_of_outcome hp (by omega) (hnone k (by omega) (by omega))
  · refine Or.inr ⟨k, slots.found p.groupCount, by omega, by omega,
      searchAt_of_outcome hp hk hsome, fun k' hle' hlt ↦ ?_, fun origin' hle' hlt ↦ ?_⟩
    · obtain ⟨k', rfl⟩ := Int.eq_ofNat_of_zero_le (Int.le_trans h hle')
      exact searchAt_of_outcome hp (by omega) (hnone k' (by omega) (by omega))
    · obtain ⟨origin', rfl⟩ := Int.eq_ofNat_of_zero_le (Int.le_trans h hle')
      exact search_of_scan (by omega) (scan_eq_some hp hk (by omega) hsome
        fun k' hk' hlt' ↦ hnone k' (by omega) hlt')

/-- The same loop over the letter `a`, with a `b` behind it. -/
def loopBeforeLetter : Program :=
  ⟨#[.save 0, .split 2 5, .split 3 4, .literal (.unit 'a'), .jump 1, .literal (.unit 'b'), .save 1,
    .accept], 1⟩

theorem loopBeforeLetter_wellFormed : loopBeforeLetter.WellFormed where
  accept_last := rfl
  target_lt := by simp [loopBeforeLetter, Instr.targets]
  slot_lt := by simp [loopBeforeLetter, Instr.slot?]

/-- In `acb` the attempt at the first place goes on to the second before it fails, so that the next
one starts among states that have been entered. It fails as well, and the match at the third place
is found from each of the three. -/
theorem search_loopBeforeLetter :
    loopBeforeLetter.WellFormed ∧ (0 : Int) ≤ 0 ∧ (0 : Int) ≤ (#['a', 'c', 'b'] : Text).size ∧
      loopBeforeLetter.searchAt #['a', 'c', 'b'] 0 ⟨some 0, none⟩ = .ok none ∧
      loopBeforeLetter.searchAt #['a', 'c', 'b'] 1 ⟨some 0, none⟩ = .ok none ∧
      loopBeforeLetter.searchAt #['a', 'c', 'b'] 2 ⟨some 0, none⟩ =
        .ok (some ⟨some 2, some 3, #[some ⟨2, 3⟩]⟩) ∧
      ∀ origin : Int, 0 ≤ origin → origin ≤ 2 →
        loopBeforeLetter.search #['a', 'c', 'b'] origin ⟨some 0, none⟩ =
          .ok (some ⟨some 2, some 3, #[some ⟨2, 3⟩]⟩) := by
  have hzero : loopBeforeLetter.searchAt #['a', 'c', 'b'] 0 ⟨some 0, none⟩ = .ok none :=
    searchAt_of_explore_slots none (Nat.zero_le _) (by cbv)
  have hone : loopBeforeLetter.searchAt #['a', 'c', 'b'] 1 ⟨some 0, none⟩ = .ok none :=
    searchAt_of_explore_slots none (show 1 ≤ (#['a', 'c', 'b'] : Text).size by decide) (by cbv)
  have htwo : loopBeforeLetter.searchAt #['a', 'c', 'b'] 2 ⟨some 0, none⟩ =
      .ok (some ⟨some 2, some 3, #[some ⟨2, 3⟩]⟩) :=
    searchAt_of_explore_slots (some #[some 2, some 3])
      (show 2 ≤ (#['a', 'c', 'b'] : Text).size by decide) (by cbv)
  have hsize : (0 : Int) ≤ (#['a', 'c', 'b'] : Text).size := Int.natCast_nonneg _
  refine ⟨loopBeforeLetter_wellFormed, Int.le_refl 0, hsize, hzero, hone, htwo, ?_⟩
  rcases search_first_searchAt loopBeforeLetter_wellFormed 0 (Int.le_refl 0) hsize with
    ⟨-, hnone⟩ | ⟨k, found, hle, -, hfound, hbefore, hsearch⟩
  · cases htwo.symm.trans (hnone 2 (by decide) (by decide))
  have hk : k ≤ 2 := by
    by_contra hlt
    cases htwo.symm.trans (hbefore 2 (by decide) (by omega))
  obtain rfl | rfl | rfl : k = 0 ∨ k = 1 ∨ k = 2 := by omega
  · cases hzero.symm.trans hfound
  · cases hone.symm.trans hfound
  · cases htwo.symm.trans hfound
    exact hsearch

end Program

end ExtendedRegex
