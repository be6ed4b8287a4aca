import ExtendedRegex.Proofs.Preference
import ExtendedRegex.Proofs.StateTable

/-!
The search with one table of entered states, compared with all runs. While a job is being explored,
the states on the way to it form a path; every state in the table is blocked by that path, in the
sense that no run from there reaches acceptance without entering the path. Skipping the states in
the table therefore loses no run that enters a state only once.
-/

set_option autoImplicit false
set_option relaxedAutoImplicit false

namespace ExtendedRegex

/-- A job at an instruction of the program and a position of the subject. -/
structure Job.Within (j : Job) (p : Program) (subject : Text) : Prop where
  address_lt : j.address < p.code.size
  position_le : j.position ≤ subject.size

namespace Program

variable {p : Program} {subject : Text} {anchor : Int} {limit : Option Int}
  {seen seen' : StateSet} {steps : Nat} {j : Job} {jobs jobs' : List Job}
  {path : List (Nat × Nat)} {r : Option Slots}

/-! ### One step of the search -/

theorem explore_nil :
    p.explore subject anchor limit seen steps [] = .ok ⟨none, seen, steps⟩ := by
  rw [explore]

theorem explore_skip (hvisit : seen.visit j.address j.position = (false, seen')) :
    p.explore subject anchor limit seen steps (j :: jobs) =
      p.explore subject anchor limit seen' steps jobs := by
  rw [explore]
  split
  · next heq =>
    obtain ⟨-, rfl⟩ := Prod.mk.inj (hvisit.symm.trans heq)
    rfl
  · next heq => exact absurd (Prod.mk.inj (hvisit.symm.trans heq)).1 (by decide)

theorem explore_accept (hvisit : seen.visit j.address j.position = (true, seen'))
    (hlimit : exceeded? limit (steps + 1) = none) (haccept : p.Accepts j) :
    p.explore subject anchor limit seen steps (j :: jobs) =
      .ok ⟨some j.slots, seen', steps + 1⟩ := by
  unfold Accepts at haccept
  rw [explore]
  split
  · next heq => exact absurd (Prod.mk.inj (hvisit.symm.trans heq)).1 (by decide)
  · next heq =>
    obtain ⟨-, rfl⟩ := Prod.mk.inj (hvisit.symm.trans heq)
    rw [hlimit, haccept]

theorem explore_step (hvisit : seen.visit j.address j.position = (true, seen'))
    (hlimit : exceeded? limit (steps + 1) = none) (haccept : ¬ p.Accepts j) :
    p.explore subject anchor limit seen steps (j :: jobs) =
      p.explore subject anchor limit seen' (steps + 1)
        (p.successors subject anchor j ++ jobs) := by
  unfold Accepts at haccept
  rw [explore]
  split
  · next heq => exact absurd (Prod.mk.inj (hvisit.symm.trans heq)).1 (by decide)
  · next heq =>
    obtain ⟨-, rfl⟩ := Prod.mk.inj (hvisit.symm.trans heq)
    rw [hlimit]
    cases hcode : p.code[j.address]? with
    | none => simp only [successors, hcode, List.nil_append]
    | some i =>
      cases i with
      | accept => exact absurd hcode haccept
      | _ => simp only [successors, hcode]

theorem explore_exceeded {e : LimitExceeded}
    (hvisit : seen.visit j.address j.position = (true, seen'))
    (hlimit : exceeded? limit (steps + 1) = some e) :
    p.explore subject anchor limit seen steps (j :: jobs) = .error e := by
  rw [explore]
  split
  · next heq => exact absurd (Prod.mk.inj (hvisit.symm.trans heq)).1 (by decide)
  · rw [hlimit]

/-- Induction along the search: a known state is skipped, and a new one exceeds the limit, is accepted,
or is followed by what it leads to. -/
@[elab_as_elim]
theorem explore_induction (p : Program) (subject : Text) (anchor : Int) (limit : Option Int)
    {motive : StateSet → Nat → List Job → Prop} (nil : ∀ seen steps, motive seen steps [])
    (skip : ∀ seen steps j jobs seen', seen.visit j.address j.position = (false, seen') →
      motive seen' steps jobs → motive seen steps (j :: jobs))
    (exceeded : ∀ seen steps j jobs seen' e, seen.visit j.address j.position = (true, seen') →
      exceeded? limit (steps + 1) = some e → motive seen steps (j :: jobs))
    (accept : ∀ seen steps j jobs seen', seen.visit j.address j.position = (true, seen') →
      exceeded? limit (steps + 1) = none → p.Accepts j → motive seen steps (j :: jobs))
    (step : ∀ seen steps j jobs seen', seen.visit j.address j.position = (true, seen') →
      exceeded? limit (steps + 1) = none → ¬ p.Accepts j →
      motive seen' (steps + 1) (p.successors subject anchor j ++ jobs) →
      motive seen steps (j :: jobs))
    (seen : StateSet) (steps : Nat) (jobs : List Job) : motive seen steps jobs := by
  induction seen, steps, jobs using explore.induct p subject anchor limit with
  | case1 seen steps => exact nil seen steps
  | case2 seen steps j jobs seen' hvisit ih => exact skip _ _ _ _ _ hvisit ih
  | case3 seen steps j jobs seen' hvisit e hlimit => exact exceeded _ _ _ _ _ e hvisit hlimit
  | case4 seen steps j jobs seen' hvisit hcode hlimit ih =>
    have hsuccessors : p.successors subject anchor j = [] := by simp only [successors, hcode]
    refine step _ _ _ _ _ hvisit hlimit (by simp [Accepts, hcode]) ?_
    rwa [hsuccessors]
  | case5 seen steps j jobs seen' hvisit hcode hlimit =>
    exact accept _ _ _ _ _ hvisit hlimit hcode
  | case6 seen steps j jobs seen' hvisit i hi hcode hlimit ih =>
    have hsuccessors : p.successors subject anchor j = j.next subject anchor i := by
      simp only [successors, hcode]
    refine step _ _ _ _ _ hvisit hlimit (by simpa [Accepts, hcode] using hi) ?_
    rwa [hsuccessors]

/-- The jobs of a second list are explored after those of the first, with the table left by them. -/
theorem explore_append (jobs jobs' : List Job) :
    p.explore subject anchor limit seen steps (jobs ++ jobs') =
      match p.explore subject anchor limit seen steps jobs with
      | .ok ⟨none, seen', steps'⟩ => p.explore subject anchor limit seen' steps' jobs'
      | result => result := by
  induction seen, steps, jobs using explore_induction p subject anchor limit with
  | nil seen steps => rw [explore_nil, List.nil_append]
  | skip seen steps j jobs seen' hvisit ih =>
    rw [List.cons_append, explore_skip hvisit, explore_skip hvisit, ih]
  | exceeded seen steps j jobs seen' e hvisit hlimit =>
    rw [List.cons_append, explore_exceeded hvisit hlimit, explore_exceeded hvisit hlimit]
  | accept seen steps j jobs seen' hvisit hlimit haccept =>
    rw [List.cons_append, explore_accept hvisit hlimit haccept,
      explore_accept hvisit hlimit haccept]
  | step seen steps j jobs seen' hvisit hlimit haccept ih =>
    rw [List.cons_append, explore_step hvisit hlimit haccept, explore_step hvisit hlimit haccept,
      ← List.append_assoc, ih]

/-- What is explored within a limit is explored in the same way without one. -/
theorem explore_of_limited {jobs : List Job} {explored : Explored}
    (h : p.explore subject anchor limit seen steps jobs = .ok explored) :
    p.explore subject anchor none seen steps jobs = .ok explored := by
  induction seen, steps, jobs using explore_induction p subject anchor limit with
  | nil seen steps => rwa [explore_nil] at h ⊢
  | skip seen steps j jobs seen' hvisit ih =>
    rw [explore_skip hvisit] at h ⊢
    exact ih h
  | exceeded seen steps j jobs seen' e hvisit hlimit =>
    rw [explore_exceeded hvisit hlimit] at h
    cases h
  | accept seen steps j jobs seen' hvisit hlimit haccept =>
    rw [explore_accept hvisit hlimit haccept] at h
    rwa [explore_accept hvisit rfl haccept]
  | step seen steps j jobs seen' hvisit hlimit haccept ih =>
    rw [explore_step hvisit hlimit haccept] at h
    rw [explore_step hvisit rfl haccept]
    exact ih h

/-! ### Jobs stay within the program and the subject -/

theorem address_succ_lt (hp : p.WellFormed) (hj : j.address < p.code.size)
    (haccept : ¬ p.Accepts j) : j.address + 1 < p.code.size := by
  rcases Nat.lt_or_ge (j.address + 1) p.code.size with hlt | hge
  · exact hlt
  · have hlast : j.address = p.code.size - 1 := by omega
    refine absurd ?_ haccept
    unfold Accepts
    rw [hlast, ← Array.back?_eq_getElem?]
    exact hp.accept_last

/-- A step stays within the program and the subject. -/
theorem Step.within {k : Job} {branch : Nat} (h : p.Step subject anchor j branch k)
    (hp : p.WellFormed) (hj : j.Within p subject) : k.Within p subject := by
  have hnext := address_succ_lt hp hj.address_lt h.not_accepts
  cases h with
  | literal hcode hu | oneOf hcode hu =>
    exact ⟨hnext, (Array.getElem?_eq_some_iff.mp hu).1⟩
  | any hcode hlt => exact ⟨hnext, hlt⟩
  | primary hcode | secondary hcode | jump hcode =>
    exact ⟨hp.target_lt _ (Array.mem_of_getElem? hcode) _ (by simp [Instr.targets]),
      hj.position_le⟩
  | save hcode | startAnchor hcode | endAnchor hcode => exact ⟨hnext, hj.position_le⟩

theorem successors_within (hp : p.WellFormed) (hj : j.Within p subject) {k : Job}
    (hk : k ∈ p.successors subject anchor j) : k.Within p subject := by
  obtain ⟨branch, hstep⟩ := mem_successors_iff.mp hk
  exact hstep.within hp hj

/-! ### The table of entered states -/

variable (p subject anchor) in
/-- Every run from a state in the table enters the path. -/
def Blocked (seen : StateSet) (path : List (Nat × Nat)) : Prop :=
  ∀ j choices states slots, p.Run subject anchor j choices states slots → j.state ∈ seen →
    ∃ q ∈ states, q ∈ path

/-- No state twice, and none of the path. -/
def Apart (path states : List (Nat × Nat)) : Prop := states.Nodup ∧ ∀ q ∈ states, q ∉ path

theorem apart_cons {q : Nat × Nat} (hq : q ∉ path) :
    (fun states ↦ Apart path (q :: states)) = Apart (q :: path) := by
  funext states
  simp only [Apart, List.nodup_cons, List.mem_cons, forall_eq_or_imp, not_or, eq_iff_iff]
  constructor
  · rintro ⟨⟨hmem, hnodup⟩, -, hpath⟩
    exact ⟨hnodup, fun s hs ↦ ⟨fun heq ↦ hmem (heq ▸ hs), hpath s hs⟩⟩
  · rintro ⟨hnodup, hpath⟩
    exact ⟨⟨fun hmem ↦ (hpath q hmem).1 rfl, hnodup⟩, hq, fun s hs ↦ (hpath s hs).2⟩

theorem accepts_of_state_eq {k : Job} (hstate : j.state = k.state) (h : p.Accepts j) :
    p.Accepts k := by
  have haddress : j.address = k.address := congrArg Prod.fst hstate
  unfold Accepts at h ⊢
  rw [← haddress, h]

theorem Blocked.visit (h : p.Blocked subject anchor seen path) {q : Nat × Nat}
    (hmem : ∀ s, s ∈ seen' ↔ s = q ∨ s ∈ seen) : p.Blocked subject anchor seen' (q :: path) := by
  intro k choices states slots hrun hk
  rcases (hmem _).mp hk with hq | hk
  · exact ⟨k.state, hrun.head_mem, by simp [hq]⟩
  · obtain ⟨s, hs, hpath⟩ := h _ _ _ _ hrun hk
    exact ⟨s, hs, List.mem_cons_of_mem _ hpath⟩

/-- A job is finished once all jobs after it are in the table: it need not be on the path any more,
because a run that comes back to it goes on through one of them. -/
theorem Blocked.finish (h : p.Blocked subject anchor seen (j.state :: path))
    (haccept : ¬ p.Accepts j)
    (hsuccessors : ∀ k ∈ p.successors subject anchor j, k.state ∈ seen) :
    p.Blocked subject anchor seen path := by
  intro k choices
  induction hn : choices.length using Nat.strongRecOn generalizing k choices with
  | _ n ih =>
    intro states slots hrun hk
    obtain ⟨q, hq, hpath⟩ := h _ _ _ _ hrun hk
    rcases List.mem_cons.mp hpath with rfl | hpath
    · obtain ⟨before, after, k', statesBefore, states', rfl, rfl, hstate, hrun', -⟩ :=
        hrun.exists_rest hq
      cases hrun' with
      | accept haccept' => exact absurd (accepts_of_state_eq hstate haccept') haccept
      | @step _ next branch rest reststates _ hstep hrest =>
        obtain ⟨next', hstep', heq⟩ := hstep.of_state_eq hstate
        have hseen : next.state ∈ seen := heq ▸ hsuccessors _ (mem_successors_iff.mpr ⟨_, hstep'⟩)
        have hlength : rest.length < n := by
          rw [← hn, List.length_append, List.length_cons]
          omega
        obtain ⟨s, hs, hpath⟩ := ih _ hlength _ _ rfl _ _ hrest hseen
        exact ⟨s, List.mem_append_right _ (List.mem_cons_of_mem _ hs), hpath⟩
    · exact ⟨q, hq, hpath⟩

/-- A table with room for the states of the program over the subject. -/
structure Fits (p : Program) (subject : Text) (seen : StateSet) : Prop where
  width_eq : seen.width = subject.size + 1
  hasRoom : seen.HasRoom p.code.size

theorem fits_states : p.Fits subject (p.states subject) :=
  ⟨rfl, StateSet.hasRoom_ofSize _ _⟩

theorem blocked_states (anchor : Int) : p.Blocked subject anchor (p.states subject) path :=
  fun _ _ _ _ _ h ↦ absurd h (StateSet.not_mem_ofSize _ _ _)

theorem exists_visit (hfits : p.Fits subject seen) (hj : j.Within p subject)
    (hnew : j.state ∉ seen) :
    ∃ seen', seen.visit j.address j.position = (true, seen') ∧ p.Fits subject seen' ∧
      ∀ s, s ∈ seen' ↔ s = j.state ∨ s ∈ seen := by
  have hposition : j.position < seen.width := by
    rw [hfits.width_eq]
    exact Nat.lt_succ_of_le hj.position_le
  obtain ⟨seen', hvisit, hwidth, hroom, hmem⟩ :=
    StateSet.visit_of_not_mem hfits.hasRoom hj.address_lt hposition hnew
  exact ⟨seen', hvisit, ⟨hwidth.trans hfits.width_eq, hroom⟩, hmem⟩

/-- A visit that enters something enters a new state. -/
theorem visit_new (hfits : p.Fits subject seen) (hj : j.Within p subject)
    (hvisit : seen.visit j.address j.position = (true, seen')) :
    j.state ∉ seen ∧ p.Fits subject seen' ∧ ∀ s, s ∈ seen' ↔ s = j.state ∨ s ∈ seen := by
  have hnew : j.state ∉ seen := by
    intro hmem
    rw [StateSet.visit_of_mem hmem] at hvisit
    exact absurd (Prod.mk.inj hvisit).1 (by decide)
  obtain ⟨seen'', hvisit', hfits', hmem⟩ := exists_visit hfits hj hnew
  obtain rfl := (Prod.mk.inj (hvisit'.symm.trans hvisit)).2
  exact ⟨hnew, hfits', hmem⟩

variable (p subject anchor) in
/-- What is known of the table after jobs have been explored without success. -/
structure Exhausted (seen : StateSet) (path : List (Nat × Nat)) (jobs : List Job)
    (seen' : StateSet) : Prop where
  fits : p.Fits subject seen'
  free_le : seen'.free.length ≤ seen.free.length
  subset : ∀ s ∈ seen, s ∈ seen'
  state_mem : ∀ j ∈ jobs, j.state ∈ seen'
  blocked : p.Blocked subject anchor seen' path

namespace Exhausted

theorem nil (hfits : p.Fits subject seen) (hblocked : p.Blocked subject anchor seen path) :
    p.Exhausted subject anchor seen path [] seen :=
  ⟨hfits, Nat.le_refl _, fun _ hs ↦ hs, by simp, hblocked⟩

theorem skip (h : p.Exhausted subject anchor seen path jobs seen') (hseen : j.state ∈ seen) :
    p.Exhausted subject anchor seen path (j :: jobs) seen' := by
  refine { h with state_mem := fun k hk ↦ ?_ }
  rcases List.mem_cons.mp hk with rfl | hk
  · exact h.subset _ hseen
  · exact h.state_mem k hk

/-- First all that a new job leads to, then the jobs after it. -/
theorem cons {seen₁ seen₂ seen₃ : StateSet}
    (h₂ : p.Exhausted subject anchor seen₁ (j.state :: path) (p.successors subject anchor j) seen₂)
    (h₃ : p.Exhausted subject anchor seen₂ path jobs seen₃)
    (hmem : ∀ s, s ∈ seen₁ ↔ s = j.state ∨ s ∈ seen)
    (hfree : seen₁.free.length ≤ seen.free.length) :
    p.Exhausted subject anchor seen path (j :: jobs) seen₃ := by
  have hj : j.state ∈ seen₃ := h₃.subset _ (h₂.subset _ ((hmem _).mpr (Or.inl rfl)))
  refine ⟨h₃.fits, Nat.le_trans h₃.free_le (Nat.le_trans h₂.free_le hfree),
    fun s hs ↦ h₃.subset s (h₂.subset s ((hmem s).mpr (Or.inr hs))), fun k hk ↦ ?_, h₃.blocked⟩
  rcases List.mem_cons.mp hk with rfl | hk
  · exact hj
  · exact h₃.state_mem k hk

end Exhausted

/-- A job that is skipped has no run that stays apart from the path. -/
theorem Blocked.outcome_none (h : p.Blocked subject anchor seen path) (hseen : j.state ∈ seen) :
    p.Outcome subject anchor (Apart path) [j] none := by
  intro choices states slots hrun hapart
  obtain ⟨_, rfl, hrun'⟩ := runFrom_singleton.mp hrun
  obtain ⟨q, hq, hin⟩ := h _ _ _ _ hrun' hseen
  exact hapart.2 q hq hin

/-- Exploring jobs below a path gives the outcome of the runs that stay apart from the path,
although states in the table are skipped. Without a limit it always gives one. -/
theorem explore_outcome (hp : p.WellFormed) (hfits : p.Fits subject seen)
    (hblocked : p.Blocked subject anchor seen path) (hpath : ∀ q ∈ path, q ∈ seen) (steps : Nat)
    (hjobs : ∀ j ∈ jobs, j.Within p subject) :
    ∃ r seen' steps', p.explore subject anchor none seen steps jobs = .ok ⟨r, seen', steps'⟩ ∧
      p.Outcome subject anchor (Apart path) jobs r ∧
      (r = none → p.Exhausted subject anchor seen path jobs seen') := by
  -- A new state makes the table larger, and a known one makes the list of jobs shorter.
  induction hn : seen.free.length using Nat.strongRecOn generalizing seen path steps jobs with
  | _ n ihTable =>
    induction jobs with
    | nil => exact ⟨none, seen, steps, explore_nil, outcome_nil, fun _ ↦ .nil hfits hblocked⟩
    | cons j jobs ihJobs =>
      have hj := hjobs j List.mem_cons_self
      have hrest : ∀ k ∈ jobs, k.Within p subject := fun k hk ↦ hjobs k (List.mem_cons_of_mem _ hk)
      by_cases hseen : j.state ∈ seen
      · obtain ⟨r, seen', steps', hexplore, houtcome, hexhausted⟩ := ihJobs hrest
        refine ⟨r, seen', steps', ?_, ?_, fun hr ↦ (hexhausted hr).skip hseen⟩
        · rw [explore_skip (StateSet.visit_of_mem hseen), hexplore]
        · exact outcome_append_of_none (hblocked.outcome_none hseen) houtcome
      · obtain ⟨seen₁, hvisit, hfits₁, hmem₁⟩ := exists_visit hfits hj hseen
        have hnotPath : j.state ∉ path := fun h ↦ hseen (hpath _ h)
        have hlt : seen₁.free.length < n := hn ▸ StateSet.length_free_lt_of_visit hvisit
        by_cases haccept : p.Accepts j
        · have hsingle : Apart path [j.state] := ⟨by simp, by simpa using hnotPath⟩
          exact ⟨some j.slots, seen₁, steps + 1, explore_accept hvisit rfl haccept,
            outcome_append_of_some (outcome_of_accepts haccept hsingle), by simp⟩
        · -- What the job leads to is explored below a longer path, and the rest below the same.
          have hpath₁ : ∀ q ∈ j.state :: path, q ∈ seen₁ := by
            intro q hq
            rw [hmem₁]
            exact (List.mem_cons.mp hq).imp_right (hpath q)
          obtain ⟨r₂, seen₂, steps₂, hexplore₂, houtcome₂, hexhausted₂⟩ :=
            ihTable _ hlt hfits₁ (hblocked.visit hmem₁) hpath₁ (steps + 1)
              (fun k hk ↦ successors_within hp hj hk) rfl
          rw [← apart_cons hnotPath, ← outcome_successors haccept] at houtcome₂
          cases r₂ with
          | some slots =>
            refine ⟨some slots, seen₂, steps₂, ?_, outcome_append_of_some houtcome₂, by simp⟩
            rw [explore_step hvisit rfl haccept, explore_append, hexplore₂]
          | none =>
            have h₂ := hexhausted₂ rfl
            have hpath₂ : ∀ q ∈ path, q ∈ seen₂ :=
              fun q hq ↦ h₂.subset q (hpath₁ q (List.mem_cons_of_mem _ hq))
            obtain ⟨r₃, seen₃, steps₃, hexplore₃, houtcome₃, hexhausted₃⟩ :=
              ihTable _ (Nat.lt_of_le_of_lt h₂.free_le hlt) h₂.fits
                (h₂.blocked.finish haccept h₂.state_mem) hpath₂ steps₂ hrest rfl
            refine ⟨r₃, seen₃, steps₃, ?_, outcome_append_of_none houtcome₂ houtcome₃,
              fun hr ↦ h₂.cons (hexhausted₃ hr) hmem₁ (hn ▸ Nat.le_of_lt hlt)⟩
            rw [explore_step hvisit rfl haccept, explore_append, hexplore₂]
            exact hexplore₃

theorem start_within (hp : p.WellFormed) {position : Nat} (h : position ≤ subject.size) :
    (p.start position).Within p subject := by
  refine ⟨?_, h⟩
  have hlast := hp.accept_last
  rw [Array.back?_eq_getElem?] at hlast
  exact Nat.zero_lt_of_lt (Array.getElem?_eq_some_iff.mp hlast).1

theorem explore_start (hp : p.WellFormed) (hfits : p.Fits subject seen)
    (hblocked : p.Blocked subject anchor seen []) (steps : Nat) {position : Nat}
    (h : position ≤ subject.size) :
    ∃ r seen' steps',
      p.explore subject anchor none seen steps [p.start position] = .ok ⟨r, seen', steps'⟩ ∧
        p.Outcome subject anchor List.Nodup [p.start position] r ∧
        (r = none → p.Exhausted subject anchor seen [] [p.start position] seen') := by
  have hapart : Apart [] = List.Nodup := by
    funext states
    simp [Apart]
  rw [← hapart]
  exact explore_outcome hp hfits hblocked (by simp) steps (by simpa using start_within hp h)

variable (p subject anchor) in
/-- The slots of the preferred run from a job among those that enter no state twice. -/
def FirstSimpleRun (j : Job) (slots : Slots) : Prop :=
  ∃ choices states, p.Run subject anchor j choices states slots ∧ states.Nodup ∧
    ∀ choices' states' slots', p.Run subject anchor j choices' states' slots' → states'.Nodup →
      choices ≤ choices'

theorem outcome_some_iff {slots : Slots} :
    p.Outcome subject anchor List.Nodup [j] (some slots) ↔
      p.FirstSimpleRun subject anchor j slots := by
  constructor
  · rintro ⟨_, states, hrun, hnodup, hleast⟩
    obtain ⟨choices, rfl, hrun'⟩ := runFrom_singleton.mp hrun
    refine ⟨choices, states, hrun', hnodup, fun choices' states' slots' hother hnodup' ↦ ?_⟩
    exact le_of_cons_le_cons
      (hleast _ _ _ (runFrom_singleton.mpr ⟨choices', rfl, hother⟩) hnodup')
  · rintro ⟨choices, states, hrun, hnodup, hleast⟩
    refine ⟨_, states, runFrom_singleton.mpr ⟨choices, rfl, hrun⟩, hnodup, ?_⟩
    intro _ states' slots' hother hnodup'
    obtain ⟨choices', rfl, hother'⟩ := runFrom_singleton.mp hother
    exact List.cons_le_cons _ (hleast _ _ _ hother' hnodup')

theorem outcome_none_iff :
    p.Outcome subject anchor List.Nodup [j] none ↔
      ∀ choices states slots, p.Run subject anchor j choices states slots → ¬ states.Nodup := by
  constructor
  · intro h choices states slots hrun
    exact h _ _ _ (runFrom_singleton.mpr ⟨choices, rfl, hrun⟩)
  · intro h _ states slots hrun
    obtain ⟨choices, rfl, hrun'⟩ := runFrom_singleton.mp hrun
    exact h _ _ _ hrun'

/-- The table of entered states does not change what is found: from a start, the search gives the
slots of the preferred run that enters no state twice, and nothing if there is no such run. -/
theorem explore_firstSimpleRun (hp : p.WellFormed) (anchor : Int) {position : Nat}
    (h : position ≤ subject.size) :
    ∃ r seen steps,
      p.explore subject anchor none (p.states subject) 0 [p.start position] =
          .ok ⟨r, seen, steps⟩ ∧
        (∀ slots, r = some slots ↔ p.FirstSimpleRun subject anchor (p.start position) slots) ∧
        (r = none ↔ ∀ choices states slots,
          p.Run subject anchor (p.start position) choices states slots → ¬ states.Nodup) := by
  obtain ⟨r, seen, steps, hexplore, houtcome, -⟩ :=
    explore_start hp fits_states (blocked_states anchor) 0 h
  refine ⟨r, seen, steps, hexplore, fun slots ↦ ?_, ?_⟩
  · rw [← outcome_some_iff]
    exact ⟨fun hr ↦ hr ▸ houtcome, fun hslots ↦ houtcome.unique hslots⟩
  · rw [← outcome_none_iff]
    exact ⟨fun hr ↦ hr ▸ houtcome, fun hnone ↦ houtcome.unique hnone⟩

/-- A loop that can go round without consuming a unit. -/
def idleLoop : Program :=
  ⟨#[.save 0, .split 2 5, .split 3 4, .any, .jump 1, .save 1, .accept], 1⟩

theorem idleLoop_wellFormed : idleLoop.WellFormed where
  accept_last := rfl
  target_lt := by simp [idleLoop, Instr.targets]
  slot_lt := by simp [idleLoop, Instr.slot?]

/-- Going round again without consuming a unit comes back to the loop at the same place; the first
run that does not leaves the loop behind the only unit. -/
theorem explore_idleLoop :
    idleLoop.WellFormed ∧ 0 ≤ (#['a'] : Text).size ∧
      (∃ seen steps,
        idleLoop.explore #['a'] 0 none (idleLoop.states #['a']) 0 [idleLoop.start 0] =
          .ok ⟨some #[some 0, some 1], seen, steps⟩) ∧
      idleLoop.FirstSimpleRun #['a'] 0 (idleLoop.start 0) #[some 0, some 1] := by
  have hsize : 0 ≤ (#['a'] : Text).size := Nat.zero_le _
  obtain ⟨r, seen, steps, hexplore, hfirst, -⟩ :=
    explore_firstSimpleRun idleLoop_wellFormed 0 hsize
  have hslots : (idleLoop.explore #['a'] 0 none (idleLoop.states #['a']) 0
      [idleLoop.start 0]).map (·.slots) = .ok (some #[some 0, some 1]) := by cbv
  rw [hexplore] at hslots
  obtain rfl : r = some #[some 0, some 1] := Except.ok.inj hslots
  exact ⟨idleLoop_wellFormed, hsize, ⟨seen, steps, hexplore⟩, (hfirst _).mp rfl⟩

end Program

end ExtendedRegex
