import ExtendedRegex.Proofs.Scan
import Mathlib.Data.Finset.Card
import Mathlib.Data.Finset.Prod
import Mathlib.Data.Finset.Range

/-!
What a search costs. Every step enters one new state, so a search from all of its starts together
takes no more steps than there are pairs of an instruction and a position. The limit is compared
with the count at each step, and nothing else depends on it: a limit below the number of steps that
are needed is exceeded, and any other one leaves the result as it is.
-/

set_option autoImplicit false
set_option relaxedAutoImplicit false

namespace ExtendedRegex

/-! ### Calls under a limit -/

/-- A call that counts its steps from one number up to another. A limit is exceeded if a step goes
beyond it, and the call gives the same result under every other limit and without one. -/
structure Metered {α : Type} (call : Option Int → Except LimitExceeded α) (before after : Nat)
    (result : α) : Prop where
  le : before ≤ after
  unlimited : call none = .ok result
  limited : ∀ most : Int, call (some most) =
    if before < after ∧ most < after then .error ⟨most⟩ else .ok result

namespace Metered

variable {α β : Type} {call : Option Int → Except LimitExceeded α} {before middle after : Nat}
  {a : α} {b : β}

theorem pure (before : Nat) (a : α) : Metered (fun _ ↦ .ok a) before before a where
  le := Nat.le_refl _
  unlimited := rfl
  limited := by simp

/-- One step in front of a call. -/
theorem tick (h : Metered call (before + 1) after a) :
    Metered (fun limit ↦ match exceeded? limit (before + 1) with
      | some e => .error e
      | none => call limit) before after a where
  le := Nat.le_of_succ_le h.le
  unlimited := h.unlimited
  limited := by
    intro most
    have hle := h.le
    by_cases hmost : most < (before + 1 : Nat)
    · simp only [exceeded?, Option.bind_some, if_pos hmost]
      rw [if_pos ⟨by omega, by omega⟩]
    · simp only [exceeded?, Option.bind_some, if_neg hmost, h.limited]
      refine if_congr ?_ rfl rfl
      omega

/-- A call that goes on with the result of another one, and with its count. -/
theorem bind {call' : α → Option Int → Except LimitExceeded β} (h : Metered call before middle a)
    (h' : Metered (call' a) middle after b) :
    Metered (fun limit ↦ call limit >>= (call' · limit)) before after b where
  le := Nat.le_trans h.le h'.le
  unlimited := by
    simp only [h.unlimited]
    exact h'.unlimited
  limited := by
    intro most
    have hle := h.le
    have hle' := h'.le
    simp only [h.limited]
    by_cases hmost : before < middle ∧ most < middle
    · rw [if_pos hmost, if_pos ⟨by omega, by omega⟩]
      rfl
    · rw [if_neg hmost]
      refine (h'.limited most).trans (if_congr ?_ rfl rfl)
      omega

theorem map (h : Metered call before after a) (f : α → β) :
    Metered (fun limit ↦ (call limit).map f) before after (f a) where
  le := h.le
  unlimited := by rw [h.unlimited]; rfl
  limited := by
    intro most
    rw [h.limited, apply_ite (Except.map f)]
    rfl

/-- A call that fails without a step to spare takes a step. -/
theorem pos {e : LimitExceeded} (h : Metered call 0 after a) (herror : call (some 0) = .error e) :
    1 ≤ after := by
  by_contra hafter
  rw [h.limited, if_neg (by omega)] at herror
  cases herror

/-- From zero on, what is needed is what the count comes to. -/
theorem threshold (h : Metered call 0 after a) (hafter : 1 ≤ after) (most : Int) :
    call (some most) = if most < after then .error ⟨most⟩ else .ok a :=
  (h.limited most).trans (if_congr (by omega) rfl rfl)

end Metered

namespace Program

variable {p : Program} {subject : Text} {anchor : Int} {limit : Option Int}
  {seen seen' : StateSet} {steps position : Nat} {j : Job} {jobs : List Job} {explored : Explored}

/-! ### States entered -/

instance (seen : StateSet) (q : Nat × Nat) : Decidable (q ∈ seen) :=
  inferInstanceAs (Decidable (q.2 < seen.width ∧ seen.marked (seen.key q.1 q.2) = true))

variable (p subject) in
/-- The states of the program over the subject that are in the table. -/
def entered (seen : StateSet) : Finset (Nat × Nat) :=
  {q ∈ Finset.range p.code.size ×ˢ Finset.range (subject.size + 1) | q ∈ seen}

theorem mem_entered {q : Nat × Nat} :
    q ∈ p.entered subject seen ↔ (q.1 < p.code.size ∧ q.2 ≤ subject.size) ∧ q ∈ seen := by
  rw [entered, Finset.mem_filter, Finset.mem_product, Finset.mem_range, Finset.mem_range,
    Nat.lt_succ_iff]

variable (p subject) in
theorem card_entered_le (seen : StateSet) :
    (p.entered subject seen).card ≤ p.code.size * (subject.size + 1) := by
  refine (Finset.card_filter_le _ _).trans_eq ?_
  rw [Finset.card_product, Finset.card_range, Finset.card_range]

theorem entered_states : p.entered subject (p.states subject) = ∅ := by
  ext q
  simp [mem_entered, states, StateSet.not_mem_ofSize]

/-- A new visit enters one more state. -/
theorem entered_visit (hfits : p.Fits subject seen) (hj : j.Within p subject)
    (hvisit : seen.visit j.address j.position = (true, seen')) :
    p.Fits subject seen' ∧ (p.entered subject seen').card = (p.entered subject seen).card + 1 := by
  obtain ⟨hnew, hfits', hmem⟩ := visit_new hfits hj hvisit
  have hinsert : p.entered subject seen' = insert j.state (p.entered subject seen) := by
    ext q
    rw [Finset.mem_insert, mem_entered, mem_entered, hmem]
    constructor
    · rintro ⟨hq, rfl | hseen⟩
      · exact Or.inl rfl
      · exact Or.inr ⟨hq, hseen⟩
    · rintro (rfl | ⟨hq, hseen⟩)
      · exact ⟨⟨hj.address_lt, hj.position_le⟩, Or.inl rfl⟩
      · exact ⟨hq, Or.inr hseen⟩
  refine ⟨hfits', ?_⟩
  rw [hinsert, Finset.card_insert_of_notMem fun h ↦ hnew (mem_entered.mp h).2]

/-- The steps of an exploration are the states that it enters. -/
theorem card_entered_explore (hp : p.WellFormed) (hfits : p.Fits subject seen)
    (hjobs : ∀ j ∈ jobs, j.Within p subject)
    (h : p.explore subject anchor limit seen steps jobs = .ok explored) :
    p.Fits subject explored.seen ∧
      explored.steps + (p.entered subject seen).card =
        steps + (p.entered subject explored.seen).card := by
  induction seen, steps, jobs using explore_induction p subject anchor limit with
  | nil seen steps =>
    rw [explore_nil] at h
    obtain rfl := Except.ok.inj h
    exact ⟨hfits, rfl⟩
  | skip seen steps j jobs seen' hvisit ih =>
    rw [explore_skip hvisit] at h
    obtain rfl := StateSet.eq_of_not_visit hvisit
    exact ih hfits (fun k hk ↦ hjobs k (List.mem_cons_of_mem _ hk)) h
  | exceeded seen steps j jobs seen' e hvisit hlimit =>
    rw [explore_exceeded hvisit hlimit] at h
    cases h
  | accept seen steps j jobs seen' hvisit hlimit haccept =>
    rw [explore_accept hvisit hlimit haccept] at h
    obtain rfl := Except.ok.inj h
    obtain ⟨hfits', hcard⟩ := entered_visit hfits (hjobs j List.mem_cons_self) hvisit
    refine ⟨hfits', ?_⟩
    dsimp only
    omega
  | step seen steps j jobs seen' hvisit hlimit haccept ih =>
    rw [explore_step hvisit hlimit haccept] at h
    have hj := hjobs j List.mem_cons_self
    obtain ⟨hfits', hcard⟩ := entered_visit hfits hj hvisit
    have hnext : ∀ k ∈ p.successors subject anchor j ++ jobs, k.Within p subject := by
      intro k hk
      rcases List.mem_append.mp hk with hk | hk
      · exact successors_within hp hj hk
      · exact hjobs k (List.mem_cons_of_mem _ hk)
    obtain ⟨hexplored, hsteps⟩ := ih hfits' hnext h
    exact ⟨hexplored, by omega⟩

/-! ### The limit and the count -/

/-- At a new state the limit is compared with the count first. -/
theorem explore_visit_accept (hvisit : seen.visit j.address j.position = (true, seen'))
    (haccept : p.Accepts j) :
    p.explore subject anchor limit seen steps (j :: jobs) =
      match exceeded? limit (steps + 1) with
      | some e => .error e
      | none => .ok ⟨some j.slots, seen', steps + 1⟩ := by
  cases hlimit : exceeded? limit (steps + 1) with
  | some e => exact explore_exceeded hvisit hlimit
  | none => exact explore_accept hvisit hlimit haccept

theorem explore_visit_step (hvisit : seen.visit j.address j.position = (true, seen'))
    (haccept : ¬ p.Accepts j) :
    p.explore subject anchor limit seen steps (j :: jobs) =
      match exceeded? limit (steps + 1) with
      | some e => .error e
      | none => p.explore subject anchor limit seen' (steps + 1)
          (p.successors subject anchor j ++ jobs) := by
  cases hlimit : exceeded? limit (steps + 1) with
  | some e => exact explore_exceeded hvisit hlimit
  | none => exact explore_step hvisit hlimit haccept

theorem explore_metered (p : Program) (subject : Text) (anchor : Int) (seen : StateSet)
    (steps : Nat) (jobs : List Job) :
    ∃ explored, Metered (fun limit ↦ p.explore subject anchor limit seen steps jobs) steps
      explored.steps explored := by
  induction seen, steps, jobs using explore_induction p subject anchor none with
  | nil seen steps =>
    simp only [explore_nil]
    exact ⟨⟨none, seen, steps⟩, .pure _ _⟩
  | skip seen steps j jobs seen' hvisit ih =>
    simp only [explore_skip hvisit]
    exact ih
  | exceeded seen steps j jobs seen' e hvisit hlimit => cases hlimit
  | accept seen steps j jobs seen' hvisit hlimit haccept =>
    simp only [explore_visit_accept hvisit haccept]
    exact ⟨⟨some j.slots, seen', steps + 1⟩, (Metered.pure _ _).tick⟩
  | step seen steps j jobs seen' hvisit hlimit haccept ih =>
    obtain ⟨explored, hrest⟩ := ih
    simp only [explore_visit_step hvisit haccept]
    exact ⟨explored, hrest.tick⟩

/-- Without a step to spare, an attempt cannot enter its start. -/
theorem explore_start_exceeded (hp : p.WellFormed) (h : position ≤ subject.size) :
    p.explore subject anchor (some 0) (p.states subject) 0 [p.start position] = .error ⟨0⟩ := by
  obtain ⟨seen', hvisit, -⟩ := exists_visit fits_states (start_within hp h)
    (StateSet.not_mem_ofSize _ _ _)
  exact explore_exceeded hvisit (by simp [exceeded?])

theorem scan_eq_bind (h : position ≤ subject.size) :
    p.scan subject anchor limit seen steps position =
      p.explore subject anchor limit seen steps [p.start position] >>= fun explored ↦
        match explored.slots with
        | some slots => .ok (some slots)
        | none => p.scan subject anchor limit explored.seen explored.steps (position + 1) := by
  rw [scan, if_neg (Nat.not_lt.mpr h)]
  rcases p.explore subject anchor limit seen steps [p.start position] with
    e | ⟨slots, seen', steps'⟩
  · rfl
  · cases slots <;> rfl

/-- All starts of a scan draw on one count and one table. -/
theorem scan_metered (hp : p.WellFormed) (anchor : Int) (hfits : p.Fits subject seen)
    (steps position : Nat) :
    ∃ after result,
      Metered (fun limit ↦ p.scan subject anchor limit seen steps position) steps after result ∧
        after + (p.entered subject seen).card ≤ steps + p.code.size * (subject.size + 1) := by
  have hbound := card_entered_le p subject seen
  induction hn : subject.size + 1 - position generalizing seen steps position with
  | zero =>
    have hend : subject.size < position := by omega
    have hscan : (fun limit ↦ p.scan subject anchor limit seen steps position) =
        fun _ ↦ .ok none := by
      funext limit
      rw [scan, if_pos hend]
    rw [hscan]
    exact ⟨steps, none, .pure _ _, by omega⟩
  | succ n ih =>
    have hposition : position ≤ subject.size := by omega
    obtain ⟨explored, hexplore⟩ :=
      explore_metered p subject anchor seen steps [p.start position]
    obtain ⟨hfits', hcard⟩ := card_entered_explore hp hfits
      (by simpa using start_within hp hposition) hexplore.unlimited
    simp only [scan_eq_bind hposition]
    cases hslots : explored.slots with
    | some slots =>
      refine ⟨explored.steps, some slots, hexplore.bind ?_, ?_⟩
      · simp only [hslots]
        exact .pure _ _
      · have := card_entered_le p subject explored.seen
        omega
    | none =>
      obtain ⟨after, result, hscan, hafter⟩ :=
        ih hfits' explored.steps (position + 1) (card_entered_le p subject explored.seen) (by omega)
      refine ⟨after, result, hexplore.bind ?_, by omega⟩
      simp only [hslots]
      exact hscan

/-- A search, and an attempt at one position, need some number of steps, at least one and at most one
for each instruction and position. They exceed every limit below that number, and under every other
limit they end as they do without one. -/
theorem search_limit_threshold (hp : p.WellFormed) (anchor : Option Int) {position : Int}
    (h : 0 ≤ position) (hsize : position ≤ subject.size) :
    (∃ (steps : Nat) (found : Option Found),
      1 ≤ steps ∧ steps ≤ p.code.size * (subject.size + 1) ∧
        p.search subject position ⟨anchor, none⟩ = .ok found ∧
        ∀ most : Int, p.search subject position ⟨anchor, some most⟩ =
          if most < steps then .error ⟨most⟩ else .ok found) ∧
      ∃ (steps : Nat) (found : Option Found),
        1 ≤ steps ∧ steps ≤ p.code.size * (subject.size + 1) ∧
          p.searchAt subject position ⟨anchor, none⟩ = .ok found ∧
          ∀ most : Int, p.searchAt subject position ⟨anchor, some most⟩ =
            if most < steps then .error ⟨most⟩ else .ok found := by
  obtain ⟨position, rfl⟩ := Int.eq_ofNat_of_zero_le h
  have hposition : position ≤ subject.size := Int.ofNat_le.mp hsize
  constructor
  · obtain ⟨steps, result, hscan, hsteps⟩ :=
      scan_metered hp (anchor.getD position) fits_states 0 position
    have hpos : 1 ≤ steps := by
      refine hscan.pos (e := ⟨0⟩) ?_
      rw [scan_eq_bind hposition, explore_start_exceeded hp hposition]
      rfl
    rw [entered_states, Finset.card_empty] at hsteps
    have hsearch := hscan.map (Option.map (·.found p.groupCount))
    refine ⟨steps, result.map (·.found p.groupCount), hpos, by omega, ?_, fun most ↦ ?_⟩
    · rw [search_eq_scan hposition]
      exact hsearch.unlimited
    · rw [search_eq_scan hposition]
      exact hsearch.threshold hpos most
  · obtain ⟨explored, hexplore⟩ := explore_metered p subject (anchor.getD position)
      (p.states subject) 0 [p.start position]
    have hpos : 1 ≤ explored.steps := hexplore.pos (explore_start_exceeded hp hposition)
    obtain ⟨-, hcard⟩ := card_entered_explore hp fits_states
      (by simpa using start_within hp hposition) hexplore.unlimited
    have hbound := card_entered_le p subject explored.seen
    have hsearch := hexplore.map fun explored ↦ explored.slots.map (·.found p.groupCount)
    refine ⟨explored.steps, explored.slots.map (·.found p.groupCount), hpos, by omega, ?_,
      fun most ↦ ?_⟩
    · rw [searchAt_eq_explore hposition]
      exact hsearch.unlimited
    · rw [searchAt_eq_explore hposition]
      exact hsearch.threshold hpos most

/-- The acceptance is the tenth step. -/
theorem scan_limit_idleLoop (most : Int) :
    idleLoop.scan #['a'] 0 (some most) (idleLoop.states #['a']) 0 0 =
      if most < 10 then .error ⟨most⟩ else .ok (some #[some 0, some 1]) := by
  obtain ⟨explored, hexplore⟩ :=
    explore_metered idleLoop #['a'] 0 (idleLoop.states #['a']) 0 [idleLoop.start 0]
  have hcount : (idleLoop.explore #['a'] 0 none (idleLoop.states #['a']) 0
      [idleLoop.start 0]).map (fun e ↦ (e.slots, e.steps)) = .ok (some #[some 0, some 1], 10) := by
    cbv
  rw [hexplore.unlimited] at hcount
  obtain ⟨hslots, hsteps⟩ := Prod.mk.inj (Except.ok.inj hcount)
  rw [scan_eq_bind (Nat.zero_le _), hexplore.threshold (by omega), hsteps, Int.cast_ofNat_Int]
  by_cases hmost : most < 10
  · rw [if_pos hmost, if_pos hmost]
    rfl
  · rw [if_neg hmost, if_neg hmost]
    simp only [bind, Except.bind, hslots]

theorem search_limit_idleLoop :
    idleLoop.WellFormed ∧ (0 : Int) ≤ 0 ∧ (0 : Int) ≤ (#['a'] : Text).size ∧
      ∀ most : Int, idleLoop.search #['a'] 0 ⟨none, some most⟩ =
        if most < 10 then .error ⟨most⟩ else .ok (some ⟨some 0, some 1, #[some ⟨0, 1⟩]⟩) := by
  have hsize : (0 : Int) ≤ (#['a'] : Text).size := by decide
  obtain ⟨steps, found, -, -, -, hlimit⟩ :=
    (search_limit_threshold idleLoop_wellFormed none (Int.le_refl 0) hsize).1
  have hnine : idleLoop.search #['a'] 0 ⟨none, some 9⟩ = .error ⟨9⟩ :=
    (search_eq_scan (Nat.zero_le _)).trans (congrArg _ (scan_limit_idleLoop 9))
  have hten : idleLoop.search #['a'] 0 ⟨none, some 10⟩ =
      .ok (some ⟨some 0, some 1, #[some ⟨0, 1⟩]⟩) :=
    search_of_scan_slots #[some 0, some 1] (Nat.zero_le _) (scan_limit_idleLoop 10)
  have hbelow : ¬ (10 : Int) < steps := by
    intro hlt
    rw [hlimit, if_pos hlt] at hten
    cases hten
  have habove : (9 : Int) < steps := by
    by_contra hge
    rw [hlimit, if_neg hge] at hnine
    cases hnine
  obtain rfl : steps = 10 := by omega
  rw [hlimit, if_neg hbelow] at hten
  obtain rfl := Except.ok.inj hten
  exact ⟨idleLoop_wellFormed, Int.le_refl 0, hsize, hlimit⟩

end Program

end ExtendedRegex
