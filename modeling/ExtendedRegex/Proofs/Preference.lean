import ExtendedRegex.Proofs.Runs
import Mathlib.Data.List.Lex

/-!
The preferred run among those from a list of jobs. Which runs are admitted may depend on the states
they enter: all of them, or those that enter no state twice. The preferred run of all is one that
enters no state twice, since a loop can be left out or gone round again.
-/

set_option autoImplicit false
set_option relaxedAutoImplicit false

namespace ExtendedRegex.Program

/-! ### The order of choices -/

theorem nil_le (choices : List Nat) : [] ≤ choices := not_lt.mp (List.not_lt_nil choices)

theorem cons_le_cons_iff {branch branch' : Nat} {choices choices' : List Nat} :
    branch :: choices ≤ branch' :: choices' ↔
      branch < branch' ∨ branch = branch' ∧ choices ≤ choices' := by
  rw [le_iff_lt_or_eq, List.cons_lt_cons_iff, le_iff_lt_or_eq, List.cons_eq_cons, or_assoc,
    ← and_or_left]

theorem le_of_cons_le_cons {branch : Nat} {choices choices' : List Nat}
    (h : branch :: choices ≤ branch :: choices') : choices ≤ choices' := by
  rcases cons_le_cons_iff.mp h with hlt | ⟨-, hle⟩
  · exact absurd hlt (Nat.lt_irrefl branch)
  · exact hle

theorem le_of_append_le_append {before choices choices' : List Nat}
    (h : before ++ choices ≤ before ++ choices') : choices ≤ choices' := by
  induction before with
  | nil => exact h
  | cons _ before ih => exact ih (le_of_cons_le_cons h)

/-! ### Outcomes -/

variable (p : Program) (subject : Text) (anchor : Int)

/-- The slots of the preferred run from some jobs, among the runs with admitted states. -/
def FirstFrom (admitted : List (Nat × Nat) → Prop) (jobs : List Job) (slots : Slots) : Prop :=
  ∃ choices states, p.RunFrom subject anchor jobs choices states slots ∧ admitted states ∧
    ∀ choices' states' slots', p.RunFrom subject anchor jobs choices' states' slots' →
      admitted states' → choices ≤ choices'

/-- The slots of the preferred run, or none where there is no run with admitted states. -/
def Outcome (admitted : List (Nat × Nat) → Prop) (jobs : List Job) : Option Slots → Prop
  | some slots => p.FirstFrom subject anchor admitted jobs slots
  | none => ∀ choices states slots, p.RunFrom subject anchor jobs choices states slots →
      ¬ admitted states

variable {p subject anchor}
variable {admitted : List (Nat × Nat) → Prop} {j : Job} {jobs jobs' : List Job}
  {choices : List Nat} {states : List (Nat × Nat)} {slots : Slots} {r r' : Option Slots}

theorem not_runFrom_nil : ¬ p.RunFrom subject anchor [] choices states slots := by
  rintro ⟨hbranch, -⟩
  simp at hbranch

theorem runFrom_singleton :
    p.RunFrom subject anchor [j] choices states slots ↔
      ∃ choices', choices = 0 :: choices' ∧ p.Run subject anchor j choices' states slots := by
  constructor
  · rintro ⟨hbranch, rest⟩
    obtain ⟨hlt, rfl⟩ := List.getElem?_eq_some_iff.mp hbranch
    obtain rfl := Nat.lt_one_iff.mp hlt
    exact ⟨_, rfl, rest⟩
  · rintro ⟨choices', rfl, hrun⟩
    exact ⟨rfl, hrun⟩

theorem runFrom_append_left (h : p.RunFrom subject anchor jobs choices states slots) :
    p.RunFrom subject anchor (jobs ++ jobs') choices states slots := by
  obtain ⟨hbranch, rest⟩ := h
  obtain ⟨hlt, -⟩ := List.getElem?_eq_some_iff.mp hbranch
  exact ⟨by rw [List.getElem?_append_left hlt, hbranch], rest⟩

/-- A run from the jobs of two lists is one from the first list, or one from the second list, whose
jobs come after those of the first. -/
theorem runFrom_append (h : p.RunFrom subject anchor (jobs ++ jobs') choices states slots) :
    p.RunFrom subject anchor jobs choices states slots ∨
      ∃ branch choices', choices = (jobs.length + branch) :: choices' ∧
        p.RunFrom subject anchor jobs' (branch :: choices') states slots := by
  obtain ⟨hbranch, rest⟩ := h
  rename_i branch choices'
  rcases Nat.lt_or_ge branch jobs.length with hlt | hle
  · exact Or.inl ⟨by rw [← hbranch, List.getElem?_append_left hlt], rest⟩
  · refine Or.inr ⟨branch - jobs.length, choices', ?_, ?_, rest⟩
    · rw [Nat.add_sub_cancel' hle]
    · rw [← hbranch, List.getElem?_append_right hle]

theorem runFrom_append_right {branch : Nat}
    (h : p.RunFrom subject anchor jobs' (branch :: choices) states slots) :
    p.RunFrom subject anchor (jobs ++ jobs') ((jobs.length + branch) :: choices) states slots := by
  cases h with
  | intro hbranch rest =>
    refine ⟨?_, rest⟩
    rw [List.getElem?_append_right (Nat.le_add_right _ _), Nat.add_sub_cancel_left, hbranch]

theorem runFrom_length (h : p.RunFrom subject anchor jobs choices states slots) :
    ∃ branch choices', choices = branch :: choices' ∧ branch < jobs.length := by
  obtain ⟨hbranch, -⟩ := h
  exact ⟨_, _, rfl, (List.getElem?_eq_some_iff.mp hbranch).1⟩

theorem runFrom_unique {states' : List (Nat × Nat)} {slots' : Slots}
    (h : p.RunFrom subject anchor jobs choices states slots)
    (h' : p.RunFrom subject anchor jobs choices states' slots') :
    states = states' ∧ slots = slots' := by
  cases h with
  | intro hbranch rest =>
    cases h' with
    | intro hbranch' rest' =>
      obtain rfl := Option.some.inj (hbranch.symm.trans hbranch')
      exact rest.eq_of_choices rest'

/-- There is at most one outcome. -/
theorem Outcome.unique (h : p.Outcome subject anchor admitted jobs r)
    (h' : p.Outcome subject anchor admitted jobs r') : r = r' := by
  cases r with
  | none =>
    cases r' with
    | none => rfl
    | some slots' =>
      obtain ⟨_, _, hrun, hadmitted, -⟩ := h'
      exact absurd hadmitted (h _ _ _ hrun)
  | some slots =>
    obtain ⟨choices, states, hrun, hadmitted, hleast⟩ := h
    cases r' with
    | none => exact absurd hadmitted (h' _ _ _ hrun)
    | some slots' =>
      obtain ⟨choices', states', hrun', hadmitted', hleast'⟩ := h'
      obtain rfl := le_antisymm (hleast _ _ _ hrun' hadmitted')
        (hleast' _ _ _ hrun hadmitted)
      rw [(runFrom_unique hrun hrun').2]

theorem outcome_nil : p.Outcome subject anchor admitted [] none :=
  fun _ _ _ h ↦ absurd h not_runFrom_nil

theorem outcome_of_accepts (h : p.Accepts j) (hadmitted : admitted [j.state]) :
    p.Outcome subject anchor admitted [j] (some j.slots) := by
  refine ⟨[0], [j.state], runFrom_singleton.mpr ⟨[], rfl, .accept h⟩, hadmitted, ?_⟩
  intro choices' states' slots' h' _
  obtain ⟨choices, rfl, -⟩ := runFrom_singleton.mp h'
  exact List.cons_le_cons _ (nil_le _)

theorem runFrom_successors (h : ¬ p.Accepts j) :
    p.RunFrom subject anchor [j] choices states slots ↔
      ∃ choices' states', choices = 0 :: choices' ∧ states = j.state :: states' ∧
        p.RunFrom subject anchor (p.successors subject anchor j) choices' states' slots := by
  rw [runFrom_singleton]
  constructor
  · rintro ⟨choices', rfl, hrun⟩
    cases hrun with
    | accept haccept => exact absurd haccept h
    | step hstep rest => exact ⟨_, _, rfl, rfl, step_iff.mp hstep, rest⟩
  · rintro ⟨_, _, rfl, rfl, ⟨hbranch, rest⟩⟩
    exact ⟨_, rfl, .step (step_iff.mpr hbranch) rest⟩

/-- A job that is not accepted comes to what the jobs after one step come to. -/
theorem outcome_successors (h : ¬ p.Accepts j) :
    p.Outcome subject anchor admitted [j] r ↔
      p.Outcome subject anchor (fun states ↦ admitted (j.state :: states))
        (p.successors subject anchor j) r := by
  cases r with
  | none =>
    constructor
    · intro hnone choices states slots hrun
      exact hnone _ _ _ ((runFrom_successors h).mpr ⟨_, _, rfl, rfl, hrun⟩)
    · intro hnone choices states slots hrun
      obtain ⟨_, _, rfl, rfl, hrun'⟩ := (runFrom_successors h).mp hrun
      exact hnone _ _ _ hrun'
  | some slots =>
    constructor
    · rintro ⟨choices, states, hrun, hadmitted, hleast⟩
      obtain ⟨choices', states', rfl, rfl, hrun'⟩ := (runFrom_successors h).mp hrun
      refine ⟨choices', states', hrun', hadmitted, fun _ _ _ hother hadmitted' ↦ ?_⟩
      have hle := hleast _ _ _ ((runFrom_successors h).mpr ⟨_, _, rfl, rfl, hother⟩) hadmitted'
      exact le_of_cons_le_cons hle
    · rintro ⟨choices, states, hrun, hadmitted, hleast⟩
      refine ⟨_, _, (runFrom_successors h).mpr ⟨_, _, rfl, rfl, hrun⟩, hadmitted, ?_⟩
      intro _ _ _ hother hadmitted'
      obtain ⟨_, _, rfl, rfl, hother'⟩ := (runFrom_successors h).mp hother
      exact List.cons_le_cons _ (hleast _ _ _ hother' hadmitted')

theorem outcome_append_of_some (h : p.Outcome subject anchor admitted jobs (some slots)) :
    p.Outcome subject anchor admitted (jobs ++ jobs') (some slots) := by
  obtain ⟨choices, states, hrun, hadmitted, hleast⟩ := h
  refine ⟨choices, states, runFrom_append_left hrun, hadmitted, ?_⟩
  intro choices' states' slots' hother hadmitted'
  rcases runFrom_append hother with hleft | ⟨branch, choices'', rfl, -⟩
  · exact hleast _ _ _ hleft hadmitted'
  · obtain ⟨_, _, rfl, hlt⟩ := runFrom_length hrun
    exact cons_le_cons_iff.mpr (Or.inl (by omega))

theorem outcome_append_of_none (h : p.Outcome subject anchor admitted jobs none)
    (h' : p.Outcome subject anchor admitted jobs' r) :
    p.Outcome subject anchor admitted (jobs ++ jobs') r := by
  cases r with
  | none =>
    intro choices states slots hrun hadmitted
    rcases runFrom_append hrun with hleft | ⟨_, _, rfl, hright⟩
    · exact h _ _ _ hleft hadmitted
    · exact h' _ _ _ hright hadmitted
  | some slots =>
    obtain ⟨choices, states, hrun, hadmitted, hleast⟩ := h'
    obtain ⟨branch, choices, rfl, -⟩ := runFrom_length hrun
    refine ⟨_, states, runFrom_append_right hrun, hadmitted, ?_⟩
    intro choices' states' slots' hother hadmitted'
    rcases runFrom_append hother with hleft | ⟨branch', choices'', rfl, hright⟩
    · exact absurd hadmitted' (h _ _ _ hleft)
    · rcases cons_le_cons_iff.mp (hleast _ _ _ hright hadmitted') with hlt | ⟨rfl, hle⟩
      · exact cons_le_cons_iff.mpr (Or.inl (by omega))
      · exact List.cons_le_cons _ hle

/-- The jobs of a second list matter only if there is no run from the first one. -/
theorem outcome_append :
    p.Outcome subject anchor admitted (jobs ++ jobs') r ↔
      (∃ slots, r = some slots ∧ p.Outcome subject anchor admitted jobs (some slots)) ∨
        p.Outcome subject anchor admitted jobs none ∧
          p.Outcome subject anchor admitted jobs' r := by
  constructor
  · intro h
    cases r with
    | none =>
      refine Or.inr ⟨fun _ _ _ hrun ↦ h _ _ _ (runFrom_append_left hrun), fun _ _ _ hrun ↦ ?_⟩
      obtain ⟨_, _, rfl, -⟩ := runFrom_length hrun
      exact h _ _ _ (runFrom_append_right hrun)
    | some slots =>
      obtain ⟨choices, states, hrun, hadmitted, hleast⟩ := h
      rcases runFrom_append hrun with hleft | ⟨branch, choices, rfl, hright⟩
      · exact Or.inl ⟨slots, rfl, choices, states, hleft, hadmitted,
          fun _ _ _ hother ↦ hleast _ _ _ (runFrom_append_left hother)⟩
      · refine Or.inr ⟨fun choices' states' slots' hother hadmitted' ↦ ?_, _, states, hright,
          hadmitted, fun choices' states' slots' hother hadmitted' ↦ ?_⟩
        · have hle := hleast _ _ _ (runFrom_append_left hother) hadmitted'
          obtain ⟨branch', _, rfl, hlt⟩ := runFrom_length hother
          rcases cons_le_cons_iff.mp hle with hlt' | ⟨heq, -⟩ <;> omega
        · obtain ⟨branch', _, rfl, hlt⟩ := runFrom_length hother
          have hle := hleast _ _ _ (runFrom_append_right hother) hadmitted'
          rcases cons_le_cons_iff.mp hle with hlt' | ⟨heq, hle'⟩
          · exact cons_le_cons_iff.mpr (Or.inl (by omega))
          · exact cons_le_cons_iff.mpr (Or.inr ⟨by omega, hle'⟩)
  · rintro (⟨slots, rfl, h⟩ | ⟨h, h'⟩)
    · exact outcome_append_of_some h
    · exact outcome_append_of_none h h'

/-! ### All runs -/

/-- The preferred run of all enters no state twice. If it went round a loop, neither leaving the
loop out nor going round it once more would be preferred, so the loop would have no choices. -/
theorem Outcome.nodup (h : p.Outcome subject anchor (fun _ ↦ True) [j] r) :
    p.Outcome subject anchor List.Nodup [j] r := by
  cases r with
  | none => exact fun choices states slots hrun _ ↦ h choices states slots hrun trivial
  | some slots =>
    obtain ⟨_, states, hrun, -, hleast⟩ := h
    refine ⟨_, states, hrun, ?_, fun _ _ _ hother _ ↦ hleast _ _ _ hother trivial⟩
    obtain ⟨choices, rfl, hrun'⟩ := runFrom_singleton.mp hrun
    have hleast' : ∀ choices' states' slots', p.Run subject anchor j choices' states' slots' →
        choices ≤ choices' := by
      intro choices' states' slots' hother
      exact le_of_cons_le_cons
        (hleast _ _ _ (runFrom_singleton.mpr ⟨choices', rfl, hother⟩) trivial)
    by_cases hnodup : states.Nodup
    · exact hnodup
    · obtain ⟨before, loop, after, rfl, hloop, ⟨_, _, hskip⟩, ⟨_, _, htwice⟩⟩ :=
        hrun'.exists_loop hnodup
      have hle : loop ++ after ≤ after := le_of_append_le_append (hleast' _ _ _ hskip)
      have hge : after ≤ loop ++ after :=
        le_of_append_le_append (le_of_append_le_append (hleast' _ _ _ htwice))
      exact absurd (List.append_left_eq_self.mp (le_antisymm hle hge)) hloop

variable (p subject anchor) in
/-- Whether two lists of jobs come to the same, whatever states their runs enter. -/
def Agree (jobs jobs' : List Job) : Prop :=
  ∀ r, p.Outcome subject anchor (fun _ ↦ True) jobs r ↔
    p.Outcome subject anchor (fun _ ↦ True) jobs' r

namespace Agree

variable {jobs₁ jobs₂ : List Job}

theorem refl (jobs : List Job) : p.Agree subject anchor jobs jobs := fun _ ↦ Iff.rfl

theorem trans (h : p.Agree subject anchor jobs jobs₁) (h₁ : p.Agree subject anchor jobs₁ jobs₂) :
    p.Agree subject anchor jobs jobs₂ := fun r ↦ (h r).trans (h₁ r)

theorem append (h : p.Agree subject anchor jobs jobs₁) (h' : p.Agree subject anchor jobs' jobs₂) :
    p.Agree subject anchor (jobs ++ jobs') (jobs₁ ++ jobs₂) := by
  intro r
  simp only [outcome_append, h _, h' _]

theorem flatMap {α : Type} {l : List α} {f : α → Job} {g : α → List Job}
    (h : ∀ t ∈ l, p.Agree subject anchor [f t] (g t)) :
    p.Agree subject anchor (l.map f) (l.flatMap g) := by
  induction l with
  | nil => exact refl []
  | cons t l ih =>
    rw [List.map_cons, List.flatMap_cons, ← List.singleton_append]
    exact append (h t List.mem_cons_self) (ih fun t' ht' ↦ h t' (List.mem_cons_of_mem _ ht'))

theorem map {α : Type} {l : List α} {f g : α → Job}
    (h : ∀ t ∈ l, p.Agree subject anchor [f t] [g t]) :
    p.Agree subject anchor (l.map f) (l.map g) := by
  rw [List.map_eq_flatMap (f := g)]
  exact flatMap h

theorem successors (h : ¬ p.Accepts j) :
    p.Agree subject anchor [j] (p.successors subject anchor j) := fun _ ↦ outcome_successors h

end Agree

end ExtendedRegex.Program
