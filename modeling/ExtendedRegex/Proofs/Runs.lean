import ExtendedRegex.Search.Explore

/-!
Executions of a program, apart from the search that finds them. What a step does is said for each
instruction by itself, and the jobs that the search goes on with are shown to be those of the steps.
A run follows one job to another until a job is accepted; the branches it takes are its choices, and
runs are preferred in the lexicographic order of their choices.
-/

set_option autoImplicit false
set_option relaxedAutoImplicit false

namespace ExtendedRegex

/-- Where a job stands. What can be executed from there does not depend on the saved positions. -/
def Job.state (j : Job) : Nat × Nat := (j.address, j.position)

/-- The addresses that an instruction leads to apart from the next one. -/
def Instr.targets : Instr → List Nat
  | split primary secondary => [primary, secondary]
  | jump target => [target]
  | literal _ | any | oneOf _ | save _ | startAnchor | endAnchor | accept => []

def Instr.slot? : Instr → Option Nat
  | save slot => some slot
  | literal _ | any | oneOf _ | split _ _ | jump _ | startAnchor | endAnchor | accept => none

/-- Branches stay inside the code, the code ends with an acceptance, and saved positions have a
slot. -/
structure Program.WellFormed (p : Program) : Prop where
  accept_last : p.code.back? = some .accept
  target_lt : ∀ i ∈ p.code, ∀ target ∈ i.targets, target < p.code.size
  slot_lt : ∀ i ∈ p.code, ∀ slot ∈ i.slot?, slot < 2 * p.groupCount

namespace Program

variable (p : Program) (subject : Text) (anchor : Int)

/-- The jobs that one step leads to, the preferred one first. -/
def successors (j : Job) : List Job :=
  match p.code[j.address]? with
  | some i => j.next subject anchor i
  | none => []

def Accepts (j : Job) : Prop := p.code[j.address]? = some .accept

/-- A step from a job by a branch. A split is left by two branches, of which the first is preferred,
and every other instruction by one at most: a test that fails and an acceptance lead nowhere. -/
inductive Step (j : Job) : Nat → Job → Prop where
  | literal {u : CodeUnit} (hcode : p.code[j.address]? = some (.literal (.unit u)))
      (hu : subject[j.position]? = some u) : Step j 0 ⟨j.address + 1, j.position + 1, j.slots⟩
  | any (hcode : p.code[j.address]? = some .any) (hlt : j.position < subject.size) :
      Step j 0 ⟨j.address + 1, j.position + 1, j.slots⟩
  | oneOf {tree : RangeTree} {u : CodeUnit} (hcode : p.code[j.address]? = some (.oneOf tree))
      (hu : subject[j.position]? = some u) (hcontains : tree.contains u.code = true) :
      Step j 0 ⟨j.address + 1, j.position + 1, j.slots⟩
  | primary {primary secondary : Nat}
      (hcode : p.code[j.address]? = some (.split primary secondary)) :
      Step j 0 ⟨primary, j.position, j.slots⟩
  | secondary {primary secondary : Nat}
      (hcode : p.code[j.address]? = some (.split primary secondary)) :
      Step j 1 ⟨secondary, j.position, j.slots⟩
  | jump {target : Nat} (hcode : p.code[j.address]? = some (.jump target)) :
      Step j 0 ⟨target, j.position, j.slots⟩
  | save {slot : Nat} (hcode : p.code[j.address]? = some (.save slot)) :
      Step j 0 ⟨j.address + 1, j.position, j.slots.setIfInBounds slot (some j.position)⟩
  | startAnchor (hcode : p.code[j.address]? = some .startAnchor)
      (hposition : (j.position : Int) = anchor) : Step j 0 ⟨j.address + 1, j.position, j.slots⟩
  | endAnchor (hcode : p.code[j.address]? = some .endAnchor)
      (hposition : j.position = subject.size) : Step j 0 ⟨j.address + 1, j.position, j.slots⟩

/-- A run from a job: the branches taken, the states entered, the slots of the accepted job. -/
inductive Run : Job → List Nat → List (Nat × Nat) → Slots → Prop where
  | accept {j : Job} (h : p.Accepts j) : Run j [] [j.state] j.slots
  | step {j k : Job} {branch : Nat} {choices : List Nat} {states : List (Nat × Nat)}
      {slots : Slots} (hstep : p.Step subject anchor j branch k)
      (rest : Run k choices states slots) : Run j (branch :: choices) (j.state :: states) slots

/-- A run from one of several jobs; its first choice is the job. -/
inductive RunFrom (jobs : List Job) : List Nat → List (Nat × Nat) → Slots → Prop where
  | intro {k : Job} {branch : Nat} {choices : List Nat} {states : List (Nat × Nat)} {slots : Slots}
      (hbranch : jobs[branch]? = some k) (rest : p.Run subject anchor k choices states slots) :
      RunFrom jobs (branch :: choices) states slots

variable {p subject anchor}
variable {j k k' : Job} {branch branch' : Nat} {choices choices' : List Nat}
  {states states' : List (Nat × Nat)} {slots slots' : Slots}

/-! ### Steps -/

theorem getElem?_guarded {α : Type} {c : Prop} [Decidable c] {a b : α} {i : Nat} :
    (if c then [a] else [])[i]? = some b ↔ c ∧ i = 0 ∧ a = b := by
  by_cases hc : c <;> simp [hc, List.getElem?_singleton]

theorem Step.getElem?_successors (h : p.Step subject anchor j branch k) :
    (p.successors subject anchor j)[branch]? = some k := by
  cases h with
  | literal hcode hu => simp [successors, hcode, Job.next, hu, Job.consume]
  | any hcode hlt => simp [successors, hcode, Job.next, hlt, Job.consume]
  | oneOf hcode hu hcontains => simp [successors, hcode, Job.next, hu, hcontains, Job.consume]
  | primary hcode | secondary hcode | jump hcode | save hcode =>
    simp only [successors, hcode]
    rfl
  | startAnchor hcode hposition | endAnchor hcode hposition =>
    simp [successors, hcode, Job.next, hposition, Job.pass]

theorem step_of_next {i : Instr} (hcode : p.code[j.address]? = some i)
    (h : (j.next subject anchor i)[branch]? = some k) : p.Step subject anchor j branch k := by
  cases i with
  | literal l =>
    cases l with
    | unit u =>
      obtain ⟨hu, rfl, rfl⟩ := getElem?_guarded.mp h
      exact .literal hcode hu
    | text t ht => simp [Job.next] at h
  | any =>
    obtain ⟨hlt, rfl, rfl⟩ := getElem?_guarded.mp h
    exact .any hcode hlt
  | oneOf tree =>
    simp only [Job.next] at h
    split at h
    · next u hu =>
      obtain ⟨hcontains, rfl, rfl⟩ := getElem?_guarded.mp h
      exact .oneOf hcode hu hcontains
    · simp at h
  | split primary secondary =>
    rcases branch with _ | _ | _
    · cases h
      exact .primary hcode
    · cases h
      exact .secondary hcode
    · simp [Job.next] at h
  | jump target =>
    obtain ⟨rfl, rfl⟩ : branch = 0 ∧ j.jump target = k := by
      simpa [Job.next, List.getElem?_singleton] using h
    exact .jump hcode
  | save slot =>
    obtain ⟨rfl, rfl⟩ : branch = 0 ∧ j.save slot = k := by
      simpa [Job.next, List.getElem?_singleton] using h
    exact .save hcode
  | startAnchor =>
    obtain ⟨hposition, rfl, rfl⟩ := getElem?_guarded.mp h
    exact .startAnchor hcode hposition
  | endAnchor =>
    obtain ⟨hposition, rfl, rfl⟩ := getElem?_guarded.mp h
    exact .endAnchor hcode hposition
  | accept => simp [Job.next] at h

/-- The jobs that the search goes on with are those of the steps, in the order of the branches. -/
theorem step_iff :
    p.Step subject anchor j branch k ↔ (p.successors subject anchor j)[branch]? = some k := by
  refine ⟨Step.getElem?_successors, fun h ↦ ?_⟩
  cases hcode : p.code[j.address]? with
  | none => simp [successors, hcode] at h
  | some i =>
    simp only [successors, hcode] at h
    exact step_of_next hcode h

theorem mem_successors_iff :
    k ∈ p.successors subject anchor j ↔ ∃ branch, p.Step subject anchor j branch k := by
  simp only [step_iff, List.mem_iff_getElem?]

namespace Step

/-- A branch leads to one job only. -/
theorem eq (h : p.Step subject anchor j branch k) (h' : p.Step subject anchor j branch k') :
    k = k' :=
  Option.some.inj ((step_iff.mp h).symm.trans (step_iff.mp h'))

theorem not_accepts (h : p.Step subject anchor j branch k) : ¬ p.Accepts j := by
  intro haccept
  unfold Accepts at haccept
  cases h <;> simp_all

/-- The same branches lead to the same states whatever has been saved. -/
theorem of_state_eq (h : p.Step subject anchor j branch k) (hstate : j.state = k'.state) :
    ∃ l, p.Step subject anchor k' branch l ∧ k.state = l.state := by
  obtain ⟨address, position, saved⟩ := j
  obtain ⟨address', position', saved'⟩ := k'
  obtain ⟨rfl, rfl⟩ := Prod.mk.inj hstate
  cases h with
  | literal hcode hu => exact ⟨_, .literal hcode hu, rfl⟩
  | any hcode hlt => exact ⟨_, .any hcode hlt, rfl⟩
  | oneOf hcode hu hcontains => exact ⟨_, .oneOf hcode hu hcontains, rfl⟩
  | primary hcode => exact ⟨_, .primary hcode, rfl⟩
  | secondary hcode => exact ⟨_, .secondary hcode, rfl⟩
  | jump hcode => exact ⟨_, .jump hcode, rfl⟩
  | save hcode => exact ⟨_, .save hcode, rfl⟩
  | startAnchor hcode hposition => exact ⟨_, .startAnchor hcode hposition, rfl⟩
  | endAnchor hcode hposition => exact ⟨_, .endAnchor hcode hposition, rfl⟩

/-- No step goes back in the subject. -/
theorem position_le (h : p.Step subject anchor j branch k) : j.position ≤ k.position := by
  cases h with
  | literal | any | oneOf => exact Nat.le_succ _
  | primary | secondary | jump | save | startAnchor | endAnchor => exact Nat.le_refl _

theorem slots_size (h : p.Step subject anchor j branch k) : k.slots.size = j.slots.size := by
  cases h with
  | save => exact Array.size_setIfInBounds
  | literal | any | oneOf | primary | secondary | jump | startAnchor | endAnchor => rfl

/-- Only a split is left by more than one branch. -/
theorem code_eq_split (h : p.Step subject anchor j branch k)
    (h' : p.Step subject anchor j branch' k') (hlt : branch < branch') :
    ∃ primary secondary, p.code[j.address]? = some (.split primary secondary) ∧
      k = j.jump primary ∧ k' = j.jump secondary := by
  cases h' with
  | secondary hcode =>
    obtain rfl : branch = 0 := by omega
    exact ⟨_, _, hcode, h.eq (.primary hcode), rfl⟩
  | literal | any | oneOf | primary | jump | save | startAnchor | endAnchor => cases hlt

end Step

/-! ### Runs -/

namespace Run

theorem states_eq (h : p.Run subject anchor j choices states slots) :
    ∃ rest, states = j.state :: rest := by
  cases h with
  | accept => exact ⟨[], rfl⟩
  | step _ _ => exact ⟨_, rfl⟩

theorem head_mem (h : p.Run subject anchor j choices states slots) : j.state ∈ states := by
  obtain ⟨rest, rfl⟩ := h.states_eq
  exact List.mem_cons_self

/-- A run is determined by its choices. -/
theorem eq_of_choices (h : p.Run subject anchor j choices states slots)
    (h' : p.Run subject anchor j choices states' slots') : states = states' ∧ slots = slots' := by
  induction h generalizing states' with
  | accept =>
    cases h'
    exact ⟨rfl, rfl⟩
  | step hstep rest ih =>
    cases h' with
    | step hstep' rest' =>
      obtain rfl := hstep.eq hstep'
      obtain ⟨rfl, rfl⟩ := ih rest'
      exact ⟨rfl, rfl⟩

/-- The same choices lead from one saved state to acceptance as from another. -/
theorem exists_of_state_eq (h : p.Run subject anchor j choices states slots)
    (hstate : j.state = k.state) : ∃ slots', p.Run subject anchor k choices states slots' := by
  induction h generalizing k with
  | @accept j haccept =>
    have haddress : j.address = k.address := congrArg Prod.fst hstate
    have hk : p.Accepts k := by
      unfold Accepts at haccept ⊢
      rw [← haddress, haccept]
    exact ⟨k.slots, hstate ▸ .accept hk⟩
  | step hstep rest ih =>
    obtain ⟨next, hstep', hnext⟩ := hstep.of_state_eq hstate
    obtain ⟨slots', hrest⟩ := ih hnext
    exact ⟨slots', hstate ▸ .step hstep' hrest⟩

/-- A run that enters a state has a rest from there on, and any other rest from the same job can
take its place. -/
theorem exists_rest (h : p.Run subject anchor j choices states slots) {q : Nat × Nat}
    (hq : q ∈ states) :
    ∃ (before after : List Nat) (k : Job) (statesBefore states' : List (Nat × Nat)),
      choices = before ++ after ∧ states = statesBefore ++ states' ∧ k.state = q ∧
        p.Run subject anchor k after states' slots ∧
        ∀ {after' states'' slots'}, p.Run subject anchor k after' states'' slots' →
          p.Run subject anchor j (before ++ after') (statesBefore ++ states'') slots' := by
  induction h with
  | @accept j haccept =>
    obtain rfl := List.mem_singleton.mp hq
    exact ⟨[], [], j, [], _, rfl, rfl, rfl, .accept haccept, fun h ↦ h⟩
  | @step j next branch _ _ _ hstep rest ih =>
    rcases List.mem_cons.mp hq with rfl | hq
    · exact ⟨[], _, j, [], _, rfl, rfl, rfl, .step hstep rest, fun h ↦ h⟩
    · obtain ⟨before, after, k, statesBefore, states', rfl, rfl, hk, hrun, hother⟩ := ih hq
      exact ⟨branch :: before, after, k, j.state :: statesBefore, states', rfl, rfl, hk, hrun,
        fun h' ↦ .step hstep (hother h')⟩

/-- A run that enters a state twice goes round a loop, which can be left out or gone round once
more. -/
theorem exists_loop (h : p.Run subject anchor j choices states slots) (hnodup : ¬ states.Nodup) :
    ∃ before loop after : List Nat, choices = before ++ (loop ++ after) ∧ loop ≠ [] ∧
      (∃ states' slots', p.Run subject anchor j (before ++ after) states' slots') ∧
      ∃ states' slots', p.Run subject anchor j (before ++ (loop ++ (loop ++ after))) states'
        slots' := by
  induction h with
  | accept => simp at hnodup
  | @step j next branch choices states slots hstep rest ih =>
    by_cases hmem : j.state ∈ states
    · obtain ⟨before, after, k, _, _, rfl, rfl, hk, hrun, hother⟩ := rest.exists_rest hmem
      obtain ⟨slots', hskip⟩ := hrun.exists_of_state_eq hk
      obtain ⟨slots'', hagain⟩ := (Run.step hstep rest).exists_of_state_eq hk.symm
      exact ⟨[], branch :: before, after, rfl, by simp, ⟨_, _, hskip⟩,
        ⟨_, _, .step hstep (hother hagain)⟩⟩
    · have hrest : ¬ states.Nodup := fun hn ↦ hnodup (List.nodup_cons.mpr ⟨hmem, hn⟩)
      obtain ⟨before, loop, after, rfl, hloop, ⟨_, _, hskip⟩, ⟨_, _, htwice⟩⟩ := ih hrest
      exact ⟨branch :: before, loop, after, rfl, hloop, ⟨_, _, .step hstep hskip⟩,
        ⟨_, _, .step hstep htwice⟩⟩

end Run

end Program

end ExtendedRegex
