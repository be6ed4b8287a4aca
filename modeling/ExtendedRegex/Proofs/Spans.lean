import ExtendedRegex.Proofs.Captures
import ExtendedRegex.Proofs.Scan
import ExtendedRegex.Proofs.SearchTree
import Mathlib.Logic.Relation

/-!
The parts of a subject that a tree spans, as relations between positions: composition for sequences,
union for alternatives, closures for loops. A program finds a match exactly where its tree spans
something, however loops, alternatives and anchors are nested.
-/

set_option autoImplicit false
set_option relaxedAutoImplicit false

namespace ExtendedRegex

namespace Regex

/-- Whether a tree is one that consumes a single unit, and the unit is one of those. -/
def consumes : Regex → CodeUnit → Bool
  | any, _ => true
  | literal (.unit v), u => u = v
  | oneOf set, u => u.code ∈ set
  | _, _ => false

variable (subject : Text) (anchor : Int)

/-- Whether there is a unit at a position that a tree consumes. -/
def reads (e : Regex) (position : Nat) : Bool := subject[position]?.any e.consumes

/-- The pairs of positions between which a tree matches. -/
def Spans : Regex → Nat → Nat → Prop
  | empty => Eq
  | any => fun p q ↦ any.reads subject p ∧ q = p + 1
  | literal l => fun p q ↦ (literal l).reads subject p ∧ q = p + 1
  | oneOf set => fun p q ↦ (oneOf set).reads subject p ∧ q = p + 1
  | cat left right => Relation.Comp left.Spans right.Spans
  | alt left right => fun p q ↦ left.Spans p q ∨ right.Spans p q
  | opt inner _ => fun p q ↦ p = q ∨ inner.Spans p q
  | star inner _ => Relation.ReflTransGen inner.Spans
  | plus inner _ => Relation.TransGen inner.Spans
  | group _ inner => inner.Spans
  | startAnchor => fun p q ↦ (p : Int) = anchor ∧ p = q
  | endAnchor => fun p q ↦ p = subject.size ∧ p = q

/-- The same together with the places saved on the way. -/
def Passes : Regex → Nat × Captures → Nat × Captures → Prop
  | empty => Eq
  | any => fun s t ↦ any.reads subject s.1 ∧ t = (s.1 + 1, s.2)
  | literal l => fun s t ↦ (literal l).reads subject s.1 ∧ t = (s.1 + 1, s.2)
  | oneOf set => fun s t ↦ (oneOf set).reads subject s.1 ∧ t = (s.1 + 1, s.2)
  | cat left right => Relation.Comp left.Passes right.Passes
  | alt left right => fun s t ↦ left.Passes s t ∨ right.Passes s t
  | opt inner _ => fun s t ↦ s = t ∨ inner.Passes s t
  | star inner _ => Relation.ReflTransGen inner.Passes
  | plus inner _ => Relation.TransGen inner.Passes
  | group label inner => fun s t ↦ ∃ m, inner.Passes (s.1, s.2.openAt label s.1) m ∧
      t = (m.1, m.2.closeAt label m.1)
  | startAnchor => fun s t ↦ (s.1 : Int) = anchor ∧ s = t
  | endAnchor => fun s t ↦ s.1 = subject.size ∧ s = t

variable {subject anchor}

theorem Passes.spans {e : Regex} {s t : Nat × Captures} (h : e.Passes subject anchor s t) :
    e.Spans subject anchor s.1 t.1 := by
  induction e generalizing s t with
  | empty => exact congrArg Prod.fst h
  | any | literal | oneOf =>
    obtain ⟨hreads, rfl⟩ := h
    exact ⟨hreads, rfl⟩
  | cat left right ihLeft ihRight =>
    obtain ⟨m, hleft, hright⟩ := h
    exact ⟨m.1, ihLeft hleft, ihRight hright⟩
  | alt left right ihLeft ihRight => exact h.imp ihLeft ihRight
  | opt inner greedy ih => exact h.imp (congrArg Prod.fst) ih
  | star inner greedy ih => exact Relation.ReflTransGen.lift Prod.fst (fun _ _ hst ↦ ih hst) _ _ h
  | plus inner greedy ih => exact Relation.TransGen.lift Prod.fst (fun _ _ hst ↦ ih hst) _ _ h
  | group label inner ih =>
    obtain ⟨m, hinner, rfl⟩ := h
    have hspans := ih hinner
    exact hspans
  | startAnchor | endAnchor => exact ⟨h.1, congrArg Prod.fst h.2⟩

end Regex

/-! ### Runs through the code of a tree -/

theorem Instr.branch_ne_accept (greedy : Bool) (enter leave : Nat) :
    Instr.branch greedy enter leave ≠ .accept := by
  cases greedy <;> simp [Instr.branch]

namespace Job

/-- The job that goes on at an address, from a position and with what is saved by then. -/
def resume (labels : List Nat) (start address : Nat) (s : Nat × Captures) : Job :=
  ⟨address, s.1, s.2.slots labels start⟩

theorem resume_open {labels : List Nat} (hlabels : labels.Nodup) (start address label : Nat)
    (s : Nat × Captures) :
    (resume labels start address s).save (2 * Regex.groupNumber labels label) =
      resume labels start (address + 1) (s.1, s.2.openAt label s.1) := by
  rw [save, resume, Captures.slots_openAt hlabels, resume]

theorem resume_close {labels : List Nat} (hlabels : labels.Nodup) (start address label : Nat)
    (s : Nat × Captures) :
    (resume labels start address s).save (2 * Regex.groupNumber labels label + 1) =
      resume labels start (address + 1) (s.1, s.2.closeAt label s.1) := by
  rw [save, resume, Captures.slots_closeAt hlabels, resume]

variable {subject : Text} {anchor : Int} {j k : Job}

theorem next_any : j.next subject anchor .any =
    if Regex.any.reads subject j.position then [j.consume] else [] := by
  by_cases h : j.position < subject.size <;> simp [next, Regex.reads, Regex.consumes, h]

theorem next_literal (l : Literal) : j.next subject anchor (.literal l) =
    if (Regex.literal l).reads subject j.position then [j.consume] else [] := by
  cases l with
  | unit v => simp [next, Regex.reads, Regex.consumes, Option.any_eq_true]
  | text t ht => simp [next, Regex.reads, Regex.consumes, Option.any_eq_true]

theorem next_oneOf (set : CodeSet) : j.next subject anchor (.oneOf set.tree) =
    if (Regex.oneOf set).reads subject j.position then [j.consume] else [] := by
  cases hunit : subject[j.position]? with
  | none => simp [next, Regex.reads, hunit]
  | some u => simp [next, Regex.reads, hunit, Regex.consumes, ← CodeSet.contains_tree]

/-- A branch leads on in both directions, the preferred one first. -/
theorem next_branch (greedy : Bool) (enter leave : Nat) :
    j.next subject anchor (.branch greedy enter leave) =
      if greedy then [j.jump enter, j.jump leave] else [j.jump leave, j.jump enter] := by
  cases greedy <;> rfl

theorem mem_next_branch {greedy : Bool} {enter leave : Nat} :
    k ∈ j.next subject anchor (.branch greedy enter leave) ↔
      k = j.jump enter ∨ k = j.jump leave := by
  rw [next_branch]
  cases greedy <;> simp [or_comm]

end Job

namespace Program

variable {p : Program} {subject : Text} {anchor : Int} {j k : Job} {i : Instr} {slots : Slots}

theorem successors_eq (hcode : p.code[j.address]? = some i) :
    p.successors subject anchor j = j.next subject anchor i := by
  simp only [successors, hcode]

variable {choices : List Nat} {states states' : List (Nat × Nat)}

/-- At an instruction other than an acceptance, a run goes on with one of the next jobs. -/
theorem Run.next (h : p.Run subject anchor j choices states slots)
    (hcode : p.code[j.address]? = some i) (hi : i ≠ .accept) :
    ∃ k ∈ j.next subject anchor i, ∃ choices' rest, states = j.state :: rest ∧
      p.Run subject anchor k choices' rest slots := by
  cases h with
  | accept haccept => exact absurd (Option.some.inj (hcode.symm.trans haccept)) hi
  | step hstep rest =>
    exact ⟨_, successors_eq hcode ▸ mem_successors_iff.mpr ⟨_, hstep⟩, _, _, rfl, rest⟩

theorem Run.eq_of_accepts (h : p.Run subject anchor j choices states slots)
    (haccept : p.Accepts j) : states = [j.state] ∧ slots = j.slots := by
  cases h with
  | accept => exact ⟨rfl, rfl⟩
  | step hstep => exact absurd haccept hstep.not_accepts

variable (p subject anchor) in
/-- A job from which a run is accepted with these slots, and ends with entering these states or the
last of them. -/
def AcceptsAlong (states : List (Nat × Nat)) (j : Job) (slots : Slots) : Prop :=
  ∃ choices states', p.Run subject anchor j choices states' slots ∧ states' <:+ states

theorem Run.acceptsAlong (h : p.Run subject anchor j choices states slots) :
    p.AcceptsAlong subject anchor states j slots :=
  ⟨choices, states, h, List.suffix_refl states⟩

theorem AcceptsAlong.state_mem (h : p.AcceptsAlong subject anchor states j slots) :
    j.state ∈ states := by
  obtain ⟨_, _, hrun, hsuffix⟩ := h
  exact hsuffix.subset hrun.head_mem

theorem AcceptsAlong.mono (h : p.AcceptsAlong subject anchor states j slots)
    (hsuffix : states <:+ states') : p.AcceptsAlong subject anchor states' j slots := by
  obtain ⟨choices, _, hrun, hsuffix'⟩ := h
  exact ⟨choices, _, hrun, hsuffix'.trans hsuffix⟩

/-- At an instruction other than an acceptance, a run goes on with one of the next jobs, and enters
the states after that of the job itself. -/
theorem AcceptsAlong.next (h : p.AcceptsAlong subject anchor states j slots)
    (hcode : p.code[j.address]? = some i) (hi : i ≠ .accept) :
    ∃ k ∈ j.next subject anchor i, ∃ choices rest, j.state :: rest <:+ states ∧
      p.Run subject anchor k choices rest slots := by
  obtain ⟨_, _, hrun, hsuffix⟩ := h
  obtain ⟨k, hk, choices, rest, rfl, hrest⟩ := hrun.next hcode hi
  exact ⟨k, hk, choices, rest, hsuffix, hrest⟩

theorem AcceptsAlong.jump (h : p.AcceptsAlong subject anchor states j slots) {target : Nat}
    (hcode : p.code[j.address]? = some (.jump target)) :
    p.AcceptsAlong subject anchor states (j.jump target) slots := by
  obtain ⟨k, hk, _, rest, hsuffix, hnext⟩ := h.next hcode (by simp)
  obtain rfl := List.mem_singleton.mp hk
  exact hnext.acceptsAlong.mono ((List.suffix_cons _ _).trans hsuffix)

theorem AcceptsAlong.slots_eq (h : p.AcceptsAlong subject anchor states j slots)
    (haccept : p.Accepts j) : slots = j.slots := by
  obtain ⟨_, _, hrun, -⟩ := h
  exact (hrun.eq_of_accepts haccept).2

end Program

namespace Regex

variable {p : Program} {subject : Text} {anchor : Int} {labels : List Nat} {start : Nat}
  {slots : Slots}

theorem suffix_of_cons {α : Type} {a : α} {l l' : List α} (h : a :: l <:+ l') : l <:+ l' :=
  (List.suffix_cons a l).trans h

open Program (AcceptsAlong) in
/-- A run through a loop is left where it goes on or is left, after any number of rounds. -/
theorem passes_rounds {inner : Regex} {greedy : Bool} {fork enter leave : Nat}
    (hfork : p.code[fork]? = some (.branch greedy enter leave))
    (hbody : ∀ {states s},
      p.AcceptsAlong subject anchor states (.resume labels start enter s) slots →
        ∃ t, inner.Passes subject anchor s t ∧
          p.AcceptsAlong subject anchor states (.resume labels start fork t) slots)
    {states : List (Nat × Nat)} {s : Nat × Captures}
    (h : p.AcceptsAlong subject anchor states (.resume labels start fork s) slots) :
    ∃ t, Relation.ReflTransGen (inner.Passes subject anchor) s t ∧ ∃ rest,
      (fork, t.1) :: rest <:+ states ∧
        ∃ choices, p.Run subject anchor (.resume labels start leave t) choices rest slots := by
  -- Every round of the loop takes a step, so fewer states are left.
  induction hn : states.length using Nat.strongRecOn generalizing states s with
  | _ n ih =>
    obtain ⟨k, hk, _, rest, hsuffix, hnext⟩ := h.next hfork (Instr.branch_ne_accept _ _ _)
    rcases Job.mem_next_branch.mp hk with rfl | rfl
    · obtain ⟨m, hm, hround⟩ := hbody hnext.acceptsAlong
      have hlength : rest.length < n := by
        have := hsuffix.length_le
        rw [List.length_cons] at this
        omega
      obtain ⟨t, ht, rest', hsuffix', hleave⟩ := ih _ hlength hround rfl
      exact ⟨t, Relation.ReflTransGen.head hm ht, rest', hsuffix'.trans (suffix_of_cons hsuffix),
        hleave⟩
    · exact ⟨s, Relation.ReflTransGen.refl, rest, hsuffix, _, hnext⟩

/-- A run through the code of a tree comes out behind it, after a match of the tree. -/
theorem passes_of_acceptsAlong (hlabels : labels.Nodup) {e : Regex} {base : Nat}
    {states : List (Nat × Nat)} {s : Nat × Captures} (hcode : p.HasCode base (e.code labels base))
    (h : p.AcceptsAlong subject anchor states (.resume labels start base s) slots) :
    ∃ t, e.Passes subject anchor s t ∧
      p.AcceptsAlong subject anchor states (.resume labels start (base + e.codeLength) t)
        slots := by
  induction e generalizing base states s with
  | empty => exact ⟨s, rfl, h⟩
  | any | literal | oneOf =>
    obtain ⟨k, hk, _, rest, hsuffix, hnext⟩ := h.next hcode.head (by simp)
    simp only [Job.next_any, Job.next_literal, Job.next_oneOf, List.mem_ite_nil_right,
      List.mem_singleton] at hk
    obtain ⟨hreads, rfl⟩ := hk
    exact ⟨_, ⟨hreads, rfl⟩, hnext.acceptsAlong.mono (suffix_of_cons hsuffix)⟩
  | cat left right ihLeft ihRight =>
    obtain ⟨hleft, hright⟩ := hcode.cat
    obtain ⟨m, hm, hmiddle⟩ := ihLeft hleft h
    obtain ⟨t, ht, hrest⟩ := ihRight hright hmiddle
    exact ⟨t, ⟨m, hm, ht⟩, by rwa [Nat.add_assoc] at hrest⟩
  | alt left right ihLeft ihRight =>
    obtain ⟨hfork, hleft, hjump, hright⟩ := hcode.alt
    obtain ⟨k, hk, _, rest, hsuffix, hnext⟩ := h.next hfork (by simp)
    have hsuffix' := suffix_of_cons hsuffix
    simp only [Job.next, List.mem_cons, List.not_mem_nil, or_false] at hk
    rcases hk with rfl | rfl
    · obtain ⟨t, ht, hend⟩ := ihLeft hleft hnext.acceptsAlong
      rw [← add_codeLength_alt]
      exact ⟨t, Or.inl ht, (hend.jump hjump).mono hsuffix'⟩
    · obtain ⟨t, ht, hend⟩ := ihRight hright hnext.acceptsAlong
      rw [add_codeLength_alt] at hend
      exact ⟨t, Or.inr ht, hend.mono hsuffix'⟩
  | opt inner greedy ih =>
    obtain ⟨hfork, hinner⟩ := hcode.opt
    obtain ⟨k, hk, _, rest, hsuffix, hnext⟩ := h.next hfork (Instr.branch_ne_accept _ _ _)
    have hsuffix' := suffix_of_cons hsuffix
    rcases Job.mem_next_branch.mp hk with rfl | rfl
    · obtain ⟨t, ht, hend⟩ := ih hinner hnext.acceptsAlong
      rw [Nat.add_right_comm] at hend
      exact ⟨t, Or.inr ht, hend.mono hsuffix'⟩
    · exact ⟨s, Or.inl rfl, hnext.acceptsAlong.mono hsuffix'⟩
  | star inner greedy ih =>
    obtain ⟨hfork, hinner, hjump⟩ := hcode.star
    obtain ⟨t, ht, rest, hsuffix, _, hend⟩ := passes_rounds hfork (fun {states s} hround ↦ by
      obtain ⟨m, hm, hend⟩ := ih hinner hround
      exact ⟨m, hm, hend.jump hjump⟩) h
    exact ⟨t, ht, hend.acceptsAlong.mono (suffix_of_cons hsuffix)⟩
  | plus inner greedy ih =>
    obtain ⟨hinner, hfork⟩ := hcode.plus
    obtain ⟨m, hm, hmiddle⟩ := ih hinner h
    obtain ⟨t, ht, rest, hsuffix, _, hend⟩ := passes_rounds hfork (ih hinner) hmiddle
    exact ⟨t, Relation.TransGen.head' hm ht, hend.acceptsAlong.mono (suffix_of_cons hsuffix)⟩
  | group label inner ih =>
    obtain ⟨hopen, hinner, hclose⟩ := hcode.group
    obtain ⟨k, hk, _, rest, hsuffix, hnext⟩ := h.next hopen (by simp)
    obtain rfl := List.mem_singleton.mp hk
    rw [Job.resume_open hlabels] at hnext
    obtain ⟨t, ht, hend⟩ := ih hinner hnext.acceptsAlong
    obtain ⟨k, hk, _, rest', hsuffix', hend'⟩ := hend.next hclose (by simp)
    obtain rfl := List.mem_singleton.mp hk
    rw [Job.resume_close hlabels, add_codeLength_group] at hend'
    exact ⟨_, ⟨t, ht, rfl⟩,
      hend'.acceptsAlong.mono ((suffix_of_cons hsuffix').trans (suffix_of_cons hsuffix))⟩
  | startAnchor | endAnchor =>
    obtain ⟨k, hk, _, rest, hsuffix, hnext⟩ := h.next hcode.head (by simp)
    obtain ⟨hposition, hk⟩ := List.mem_ite_nil_right.mp hk
    obtain rfl := List.mem_singleton.mp hk
    exact ⟨s, ⟨hposition, rfl⟩, hnext.acceptsAlong.mono (suffix_of_cons hsuffix)⟩

end Regex

namespace Program

variable (p : Program) (subject : Text) (anchor : Int)

/-- A job from which some run is accepted. -/
def Live (j : Job) : Prop :=
  ∃ choices states slots, p.Run subject anchor j choices states slots

/-- A job from which some run is accepted that enters these states last. -/
def EndsWith (ending : List (Nat × Nat)) (j : Job) : Prop :=
  ∃ choices states slots, p.Run subject anchor j choices states slots ∧ ending <:+ states

variable {p subject anchor} {j k : Job} {i : Instr} {ending : List (Nat × Nat)}

theorem EndsWith.of_state_eq (h : p.EndsWith subject anchor ending j) (hstate : j.state = k.state) :
    p.EndsWith subject anchor ending k := by
  obtain ⟨choices, states, slots, hrun, hending⟩ := h
  obtain ⟨slots', hrun'⟩ := hrun.exists_of_state_eq hstate
  exact ⟨choices, states, slots', hrun', hending⟩

theorem EndsWith.of_next (hcode : p.code[j.address]? = some i) (hk : k ∈ j.next subject anchor i)
    (h : p.EndsWith subject anchor ending k) : p.EndsWith subject anchor ending j := by
  obtain ⟨choices, states, slots, hrun, hending⟩ := h
  obtain ⟨branch, hbranch⟩ := List.mem_iff_getElem?.mp hk
  exact ⟨_, _, slots, .step (step_iff.mpr (by rw [successors_eq hcode, hbranch])) hrun,
    hending.trans (List.suffix_cons _ _)⟩

theorem endsWith_of_accepts (h : p.Accepts j) : p.EndsWith subject anchor [j.state] j :=
  ⟨[], _, _, .accept h, List.suffix_refl _⟩

/-- The search from a start succeeds exactly if some run from there is accepted. -/
theorem outcome_ne_none_iff (hp : p.WellFormed) {position : Nat} {r : Option Slots}
    (h : position ≤ subject.size)
    (houtcome : p.Outcome subject anchor List.Nodup [p.start position] r) :
    r ≠ none ↔ p.Live subject anchor (p.start position) := by
  obtain ⟨r', seen, steps, -, houtcome', hexhausted⟩ :=
    explore_start hp fits_states (blocked_states anchor) 0 h
  obtain rfl := houtcome'.unique houtcome
  constructor
  · intro hr
    obtain ⟨slots, rfl⟩ := Option.ne_none_iff_exists'.mp hr
    obtain ⟨_, states, hrun, -⟩ := houtcome
    obtain ⟨choices, rfl, hrun'⟩ := runFrom_singleton.mp hrun
    exact ⟨choices, states, slots, hrun'⟩
  · rintro ⟨choices, states, slots, hrun⟩ hr
    have hdone := hexhausted hr
    obtain ⟨q, -, hq⟩ := hdone.blocked _ _ _ _ hrun (hdone.state_mem _ (by simp))
    simp at hq

end Program

namespace Regex

variable {p : Program} {subject : Text} {anchor : Int} {labels : List Nat} {saved : Slots}
  {ending : List (Nat × Nat)}

/-- Where a tree spans a part of the subject, its code leads from the start of that part to its
end. -/
theorem endsWith_of_spans {e : Regex} {base position stop : Nat}
    (hcode : p.HasCode base (e.code labels base)) (h : e.Spans subject anchor position stop)
    (hends : p.EndsWith subject anchor ending ⟨base + e.codeLength, stop, saved⟩) :
    p.EndsWith subject anchor ending ⟨base, position, saved⟩ := by
  induction e generalizing base position stop with
  | empty =>
    obtain rfl : position = stop := h
    exact hends
  | any | literal | oneOf =>
    obtain ⟨hreads, rfl⟩ := h
    refine hends.of_next hcode.head ?_
    simp only [Job.next_any, Job.next_literal, Job.next_oneOf]
    exact List.mem_ite_nil_right.mpr ⟨hreads, List.mem_singleton.mpr rfl⟩
  | cat left right ihLeft ihRight =>
    obtain ⟨hleft, hright⟩ := hcode.cat
    obtain ⟨middle, hspansLeft, hspansRight⟩ := h
    refine ihLeft hleft hspansLeft (ihRight hright hspansRight ?_)
    rwa [Nat.add_assoc]
  | alt left right ihLeft ihRight =>
    obtain ⟨hfork, hleft, hjump, hright⟩ := hcode.alt
    rw [← add_codeLength_alt] at hends
    rcases h with h | h
    · have hnext := ihLeft hleft h (hends.of_next hjump (List.mem_singleton.mpr rfl))
      exact hnext.of_next hfork (by simp [Job.next, Job.jump])
    · have hnext := ihRight hright h hends
      exact hnext.of_next hfork (by simp [Job.next, Job.jump])
  | opt inner greedy ih =>
    obtain ⟨hfork, hinner⟩ := hcode.opt
    rcases h with rfl | h
    · exact hends.of_next hfork (Job.mem_next_branch.mpr (Or.inr rfl))
    · have hnext := ih hinner h (by rwa [Nat.add_right_comm])
      exact hnext.of_next hfork (Job.mem_next_branch.mpr (Or.inl rfl))
  | star inner greedy ih =>
    obtain ⟨hfork, hinner, hjump⟩ := hcode.star
    induction h using Relation.ReflTransGen.head_induction_on with
    | refl => exact hends.of_next hfork (Job.mem_next_branch.mpr (Or.inr rfl))
    | head hround _ ihRounds =>
      have hnext := ih hinner hround (ihRounds.of_next hjump (List.mem_singleton.mpr rfl))
      exact hnext.of_next hfork (Job.mem_next_branch.mpr (Or.inl rfl))
  | plus inner greedy ih =>
    obtain ⟨hinner, hfork⟩ := hcode.plus
    induction h using Relation.TransGen.head_induction_on with
    | single hround =>
      exact ih hinner hround (hends.of_next hfork (Job.mem_next_branch.mpr (Or.inr rfl)))
    | head hround _ ihRounds =>
      exact ih hinner hround (ihRounds.of_next hfork (Job.mem_next_branch.mpr (Or.inl rfl)))
  | group label inner ih =>
    obtain ⟨hopen, hinner, hclose⟩ := hcode.group
    have hstop : p.EndsWith subject anchor ending ⟨base + 1 + inner.codeLength, stop, saved⟩ := by
      rw [← add_codeLength_group] at hends
      exact Program.EndsWith.of_next hclose (List.mem_singleton.mpr rfl) (hends.of_state_eq rfl)
    have hnext := ih hinner h hstop
    exact Program.EndsWith.of_next hopen (List.mem_singleton.mpr rfl) (hnext.of_state_eq rfl)
  | startAnchor | endAnchor =>
    obtain ⟨hposition, rfl⟩ := h
    refine hends.of_next hcode.head ?_
    exact List.mem_ite_nil_right.mpr ⟨hposition, List.mem_singleton.mpr rfl⟩

variable (e : Regex)

theorem start_compile (position : Nat) :
    (e.compile.start position).save 0 =
      .resume e.labels position 1 (position, Captures.unset) := by
  rw [Job.save, Program.start, (code_compile e).2, Job.resume]
  simp only [Captures.slots_unset]

/-- A run through the program of a tree is a match of the tree, and ends with what the match saves
and with its end. -/
theorem passes_of_run {position : Nat} {choices : List Nat} {states : List (Nat × Nat)}
    {slots : Slots}
    (h : e.compile.Run subject anchor (e.compile.start position) choices states slots) :
    ∃ t, e.Passes subject anchor (position, Captures.unset) t ∧
      slots = (t.2.slots e.labels position).setIfInBounds 1 (some t.1) := by
  have hcode := e.hasCode_compile
  have hend := hcode.tail.right
  rw [length_code] at hend
  obtain ⟨k, hk, _, rest, -, hbody⟩ := h.acceptsAlong.next hcode.head (by simp)
  obtain rfl := List.mem_singleton.mp hk
  rw [start_compile] at hbody
  obtain ⟨t, ht, hdone⟩ :=
    passes_of_acceptsAlong (nodup_eraseDups _) hcode.tail.left hbody.acceptsAlong
  obtain ⟨k, hk, _, rest', -, haccept⟩ := hdone.next hend.head (by simp)
  obtain rfl := List.mem_singleton.mp hk
  exact ⟨t, ht, haccept.acceptsAlong.slots_eq hend.tail.head⟩

theorem passes_of_outcome {position : Nat} {slots : Slots}
    (h : e.compile.Outcome subject anchor List.Nodup [e.compile.start position] (some slots)) :
    ∃ t, e.Passes subject anchor (position, Captures.unset) t ∧
      slots = (t.2.slots e.labels position).setIfInBounds 1 (some t.1) := by
  obtain ⟨_, states, hrun, -⟩ := h
  obtain ⟨choices, -, hrun'⟩ := Program.runFrom_singleton.mp hrun
  exact e.passes_of_run hrun'

open Program (EndsWith endsWith_of_accepts) in
/-- From the start of its program, a tree is matched exactly where it spans something. -/
theorem live_start_compile_iff {position : Nat} :
    e.compile.Live subject anchor (e.compile.start position) ↔
      ∃ stop, e.Spans subject anchor position stop := by
  have hcode := e.hasCode_compile
  have hbody := hcode.tail.left
  have hend := hcode.tail.right
  rw [length_code] at hend
  constructor
  · rintro ⟨choices, states, slots, hrun⟩
    obtain ⟨t, ht, -⟩ := e.passes_of_run hrun
    exact ⟨t.1, ht.spans⟩
  · rintro ⟨stop, hspans⟩
    have haccept : ∀ saved, e.compile.Accepts (Job.save ⟨1 + e.codeLength, stop, saved⟩ 1) :=
      fun _ ↦ hend.tail.head
    have hends : e.compile.EndsWith subject anchor [(1 + e.codeLength + 1, stop)]
        ((e.compile.start position).save 0) :=
      endsWith_of_spans hbody hspans
        ((endsWith_of_accepts (haccept _)).of_next hend.head (List.mem_singleton.mpr rfl))
    obtain ⟨choices, states, slots, hrun, -⟩ :=
      EndsWith.of_next (j := e.compile.start position) hcode.head (List.mem_singleton.mpr rfl) hends
    exact ⟨choices, states, slots, hrun⟩

end Regex

end ExtendedRegex
