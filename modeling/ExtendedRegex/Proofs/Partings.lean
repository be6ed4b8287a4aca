import ExtendedRegex.Proofs.Spans

/-!
Where another run parts with the preferred one. A run that meets the path of the preferred run but
does not end on it leaves the path for good after some job; as the rest of it could be exchanged for
that of the preferred run, it leaves by a branch that is less preferred than the one along the path.
-/

set_option autoImplicit false
set_option relaxedAutoImplicit false

namespace ExtendedRegex

namespace Program

variable {p : Program} {subject : Text} {anchor : Int} {j k x y z : Job} {choices : List Nat}
  {states states' path other : List (Nat × Nat)} {slots : Slots}

/-! ### States along a run -/

theorem Run.position_le (h : p.Run subject anchor j choices states slots) {q : Nat × Nat}
    (hq : q ∈ states) : j.position ≤ q.2 := by
  induction h with
  | accept =>
    obtain rfl := List.mem_singleton.mp hq
    exact Nat.le_refl _
  | step hstep _ ih =>
    rcases List.mem_cons.mp hq with rfl | hq
    · exact Nat.le_refl _
    · exact hstep.position_le.trans (ih hq)

theorem Run.pairwise_position (h : p.Run subject anchor j choices states slots) :
    states.Pairwise fun q q' ↦ q.2 ≤ q'.2 := by
  induction h with
  | accept => exact List.pairwise_singleton _ _
  | step hstep rest ih =>
    refine List.pairwise_cons.mpr ⟨fun q hq ↦ ?_, ih⟩
    exact hstep.position_le.trans (rest.position_le hq)

/-- Without its loops, a run enters no state twice, and no other states than before. -/
theorem Run.exists_nodup (h : p.Run subject anchor j choices states slots) :
    ∃ choices' states' slots', p.Run subject anchor j choices' states' slots' ∧ states'.Nodup ∧
      states' ⊆ states := by
  induction h with
  | accept haccept => exact ⟨[], _, _, .accept haccept, by simp, List.Subset.refl _⟩
  | @step j next branch _ states _ hstep _ ih =>
    obtain ⟨choices', states', slots', hrest, hnodup, hsubset⟩ := ih
    have hsubset' : states' ⊆ j.state :: states := List.subset_cons_of_subset _ hsubset
    by_cases hj : j.state ∈ states'
    · obtain ⟨_, after, k, statesBefore, states'', -, rfl, hk, hrun, -⟩ := hrest.exists_rest hj
      obtain ⟨slots'', hrun'⟩ := hrun.exists_of_state_eq hk
      exact ⟨after, states'', slots'', hrun', (List.nodup_append.mp hnodup).2.1,
        fun q hq ↦ hsubset' (List.mem_append_right _ hq)⟩
    · refine ⟨_, _, _, .step hstep hrest, List.nodup_cons.mpr ⟨hj, hnodup⟩, ?_⟩
      exact List.cons_subset_cons _ hsubset

/-- A run that enters a path and does not end on it has a last state on it. -/
theorem Run.exists_last_on (h : p.Run subject anchor j choices states slots)
    (hmeets : ∃ q ∈ states, q ∈ path) {q : Nat × Nat} (hends : [q] <:+ states) (hq : q ∉ path) :
    ∃ (x z : Job) (branch : Nat) (choices' : List Nat) (rest : List (Nat × Nat)) (slots' : Slots),
      x.state ∈ path ∧ x.state :: rest <:+ states ∧
      p.Step subject anchor x branch z ∧
      p.Run subject anchor z choices' rest slots' ∧ ∀ s ∈ rest, s ∉ path := by
  induction h with
  | @accept j _ =>
    obtain ⟨s, hs, hpath⟩ := hmeets
    obtain rfl := List.mem_singleton.mp hs
    obtain rfl := List.mem_singleton.mp (hends.subset (List.mem_singleton_self q))
    exact absurd hpath hq
  | @step j next branch choices states slots hstep rest ih =>
    have hends' : [q] <:+ states := by
      rcases List.suffix_cons_iff.mp hends with heq | hends'
      · obtain ⟨states', rfl⟩ := rest.states_eq
        simp at heq
      · exact hends'
    by_cases hlater : ∃ s ∈ states, s ∈ path
    · obtain ⟨x, z, branch', choices', rest', slots', hx, hsuffix, hrest'⟩ := ih hlater hends'
      exact ⟨x, z, branch', choices', rest', slots', hx,
        hsuffix.trans (List.suffix_cons _ _), hrest'⟩
    · obtain ⟨s, hs, hpath⟩ := hmeets
      rcases List.mem_cons.mp hs with rfl | hs
      · exact ⟨j, next, branch, choices, states, slots, hpath, List.suffix_refl _, hstep, rest,
          fun s hs hpath ↦ hlater ⟨s, hs, hpath⟩⟩
      · exact absurd ⟨s, hs, hpath⟩ hlater

/-! ### Partings -/

variable (p subject anchor) in
/-- At a job on the path, the path goes on with one branch, and another run leaves it for good with
a less preferred one. -/
structure Parting (path other : List (Nat × Nat)) (x y z : Job) : Prop where
  branch_lt : ∃ branch branch' : Nat, branch < branch' ∧
    p.Step subject anchor x branch y ∧ p.Step subject anchor x branch' z
  along : ∃ choices rest slots, x.state :: rest <:+ path ∧
    p.Run subject anchor y choices rest slots
  away : ∃ choices rest slots, x.state :: rest <:+ other ∧
    p.Run subject anchor z choices rest slots ∧ ∀ q ∈ rest, q ∉ path

namespace Parting

/-- A run from the parting along the path. -/
theorem run (h : p.Parting subject anchor path other x y z) :
    ∃ choices states slots, states <:+ path ∧ p.Run subject anchor x choices states slots := by
  obtain ⟨branch, _, -, hstep, -⟩ := h.branch_lt
  obtain ⟨choices, rest, slots, hsuffix, hrun⟩ := h.along
  exact ⟨branch :: choices, _, slots, hsuffix, .step hstep hrun⟩

theorem mem_path (h : p.Parting subject anchor path other x y z) : x.state ∈ path := by
  obtain ⟨_, _, _, hsuffix, -⟩ := h.along
  exact hsuffix.subset List.mem_cons_self

theorem state_mem (h : p.Parting subject anchor path other x y z) : y.state ∈ path := by
  obtain ⟨_, rest, _, hsuffix, hrun⟩ := h.along
  exact hsuffix.subset (List.mem_cons_of_mem _ hrun.head_mem)

theorem mem_other (h : p.Parting subject anchor path other x y z) : x.state ∈ other := by
  obtain ⟨_, _, _, hsuffix, -⟩ := h.away
  exact hsuffix.subset List.mem_cons_self

theorem code_eq (h : p.Parting subject anchor path other x y z) :
    ∃ primary secondary, p.code[x.address]? = some (.split primary secondary) ∧
      y = x.jump primary ∧ z = x.jump secondary := by
  obtain ⟨branch, branch', hlt, hy, hz⟩ := h.branch_lt
  exact hy.code_eq_split hz hlt

end Parting

variable (p subject anchor) in
/-- The states of the preferred run from a job among those that enter no state twice. -/
def PreferredPath (j : Job) (path : List (Nat × Nat)) : Prop :=
  ∃ choices slots, p.Run subject anchor j choices path slots ∧ path.Nodup ∧
    ∀ choices' states' slots', p.Run subject anchor j choices' states' slots' → states'.Nodup →
      choices ≤ choices'

/-- Another run that meets the path of the preferred run and does not end on it parts with it. -/
theorem PreferredPath.exists_parting (h : p.PreferredPath subject anchor j path)
    (hother : p.Run subject anchor k choices other slots) (hmeets : ∃ q ∈ other, q ∈ path)
    {q : Nat × Nat} (hends : [q] <:+ other) (hq : q ∉ path) :
    ∃ x y z, p.Parting subject anchor path other x y z := by
  obtain ⟨_, _, hpath, hnodup, hleast⟩ := h
  obtain ⟨x, z, branch', after', rest', slotsZ, hx, hsuffix', hz, hrunZ, haway⟩ :=
    hother.exists_last_on hmeets hends hq
  obtain ⟨before, _, k', statesBefore, _, rfl, rfl, hk', hrunK, hexchange⟩ := hpath.exists_rest hx
  -- Along the path, the run goes on from the same state.
  obtain ⟨_, hrunX⟩ := hrunK.exists_of_state_eq hk'
  cases hrunX with
  | accept haccept => exact absurd haccept hz.not_accepts
  | @step _ y branch after rest _ hy hrunY =>
    refine ⟨x, y, z, ⟨branch, branch', ?_, hy, hz⟩,
      ⟨after, rest, _, List.suffix_append _ _, hrunY⟩,
      ⟨after', rest', slotsZ, hsuffix', hrunZ, haway⟩⟩
    -- The rest of the other run could follow the part of the path before, and enter no state twice.
    obtain ⟨after'', rest'', _, hrunZ', hnodup', hsubset⟩ := hrunZ.exists_nodup
    obtain ⟨_, hrunK'⟩ := (Run.step hz hrunZ').exists_of_state_eq hk'.symm
    have haway' : ∀ q ∈ rest'', q ∉ statesBefore ++ x.state :: rest :=
      fun q hq ↦ haway q (hsubset hq)
    have hsimple : (statesBefore ++ x.state :: rest'').Nodup := by
      obtain ⟨hbefore, -, hdisjoint⟩ := List.nodup_append.mp hnodup
      refine List.nodup_append.mpr ⟨hbefore, List.nodup_cons.mpr ⟨fun hin ↦ ?_, hnodup'⟩, ?_⟩
      · exact haway' _ hin (List.mem_append_right _ List.mem_cons_self)
      · intro q hq q' hq'
        rcases List.mem_cons.mp hq' with rfl | hq'
        · exact hdisjoint q hq _ List.mem_cons_self
        · rintro rfl
          exact haway' q hq' (List.mem_append_left _ hq)
    have hle := le_of_append_le_append (hleast _ _ _ (hexchange hrunK') hsimple)
    rcases cons_le_cons_iff.mp hle with hlt | ⟨rfl, -⟩
    · exact hlt
    · obtain rfl := hy.eq hz
      have hmem : y.state ∈ statesBefore ++ x.state :: rest :=
        List.mem_append_right _ (List.mem_cons_of_mem _ hrunY.head_mem)
      exact absurd hmem (haway _ hrunZ.head_mem)

end Program

end ExtendedRegex
