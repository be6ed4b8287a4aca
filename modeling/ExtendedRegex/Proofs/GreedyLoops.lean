import ExtendedRegex.Proofs.Partings
import ExtendedRegex.Proofs.Traversals

/-!
Where a greedy loop stops. The table of entered states cuts a round short as soon as it comes back
to any state of its own path, not only to the head of the loop. A loop can therefore stop although
another round would consume something, but only after a round that did, and only if some part of its
operand prefers to match nothing where it could consume something.
-/

set_option autoImplicit false
set_option relaxedAutoImplicit false

namespace ExtendedRegex

namespace Regex

variable {p : Program} {subject : Text} {anchor : Int} {labels : List Nat} {j x y z : Job}
  {choices : List Nat} {states path other : List (Nat × Nat)} {slots : Slots}
  {e inner : Regex} {base : Nat} {greedy : Bool}

variable (subject anchor) in
/-- Whether a tree, at a position, prefers a way to match nothing to one that consumes something. -/
def Reluctant (position : Nat) : Regex → Prop
  | alt left right => left.Spans subject anchor position position ∧
      ∃ stop, position < stop ∧ right.Spans subject anchor position stop
  | opt inner greedy | star inner greedy | plus inner greedy => greedy = false ∧
      ∃ stop, position < stop ∧ inner.Spans subject anchor position stop
  | empty | any | literal _ | oneOf _ | cat _ _ | group _ _ | startAnchor | endAnchor => False

open Program (AcceptsAlong EndsWith Run Parting endsWith_of_accepts)

/-! ### Ways through the code of a tree -/

/-- A run from the start of the code of a tree comes out behind it, where a match of the tree
ends. -/
theorem spans_of_run (hlabels : labels.Nodup) (hcode : p.HasCode base (e.code labels base))
    (h : p.Run subject anchor j choices states slots) (hj : j.address = base) :
    ∃ t : Nat × Captures, e.Spans subject anchor j.position t.1 ∧ j.position ≤ t.1 ∧
      ∃ slots', p.AcceptsAlong subject anchor states (.resume labels 0 (base + e.codeLength) t)
        slots' := by
  have hstate : j.state = (Job.resume labels 0 base (j.position, Captures.unset)).state := by
    rw [← hj]
    rfl
  obtain ⟨slots', hrun⟩ := h.exists_of_state_eq hstate
  obtain ⟨t, ht, hend⟩ := passes_of_acceptsAlong hlabels hcode hrun.acceptsAlong
  exact ⟨t, ht.spans, h.position_le hend.state_mem, slots', hend⟩

/-- The same for a run that does not get any further in the subject. -/
theorem spans_self_of_run (hlabels : labels.Nodup) (hcode : p.HasCode base (e.code labels base))
    (h : p.Run subject anchor j choices states slots) (hj : j.address = base)
    (hstays : ∀ q ∈ states, q.2 ≤ j.position) :
    e.Spans subject anchor j.position j.position ∧ ∃ saved slots',
      p.AcceptsAlong subject anchor states ⟨base + e.codeLength, j.position, saved⟩ slots' := by
  obtain ⟨⟨stop, c⟩, hspans, hle, slots', hend⟩ := spans_of_run hlabels hcode h hj
  obtain rfl : stop = j.position := Nat.le_antisymm (hstays _ hend.state_mem) hle
  exact ⟨hspans, _, slots', hend⟩

/-! ### Partings inside the code of a tree -/

section Parting

variable (h : p.Parting subject anchor path other x y z)

include h

/-- The branch that leaves the path consumes something in a tree, if behind the tree it comes to an
address where the path has been at the same position. -/
theorem spans_away (hlabels : labels.Nodup) {enter : Nat} (hz : z = x.jump enter)
    (hcode : p.HasCode enter (e.code labels enter))
    (hbehind : ∀ {rest t slots},
      p.AcceptsAlong subject anchor rest (.resume labels 0 (enter + e.codeLength) t) slots →
        ∃ address, (address, t.1) ∈ rest ∧ (address, x.position) ∈ path) :
    ∃ stop, x.position < stop ∧ e.Spans subject anchor x.position stop := by
  obtain ⟨_, rest, _, -, hrun, haway⟩ := h.away
  subst hz
  obtain ⟨⟨stop, c⟩, hspans, hle, _, hend⟩ := spans_of_run hlabels hcode hrun rfl
  refine ⟨stop, Nat.lt_of_le_of_ne hle ?_, hspans⟩
  rintro rfl
  obtain ⟨address, hrest, hmem⟩ := hbehind hend
  exact haway _ hrest hmem

/-- At a fork around an operand, the path is only left by entering a lazy operand, if a path that
enters the operand comes out at the same position. -/
theorem lazy_at_fork (hlabels : labels.Nodup) {enter leave : Nat}
    (hfork : p.code[x.address]? = some (.branch greedy enter leave))
    (hcode : p.HasCode enter (inner.code labels enter))
    (hleave : y = x.jump enter → (leave, x.position) ∈ path)
    (hbehind : ∀ {rest t slots},
      p.AcceptsAlong subject anchor rest (.resume labels 0 (enter + inner.codeLength) t) slots →
        (leave, t.1) ∈ rest ∨ (x.address, t.1) ∈ rest) :
    greedy = false ∧ ∃ stop, x.position < stop ∧ inner.Spans subject anchor x.position stop := by
  obtain ⟨primary, secondary, hsplit, hy, hz⟩ := h.code_eq
  have hbranch := Option.some.inj (hsplit.symm.trans hfork)
  cases greedy with
  | true =>
    obtain ⟨rfl, rfl⟩ := Instr.split.inj hbranch
    obtain ⟨_, rest, _, -, hrun, haway⟩ := h.away
    subst hz
    exact absurd (hleave hy) (haway _ hrun.head_mem)
  | false =>
    obtain ⟨rfl, rfl⟩ := Instr.split.inj hbranch
    refine ⟨rfl, spans_away h hlabels hz hcode fun hend ↦ ?_⟩
    rcases hbehind hend with hmem | hmem
    · have hy_mem := h.state_mem
      rw [hy] at hy_mem
      exact ⟨_, hmem, hy_mem⟩
    · exact ⟨_, hmem, h.mem_path⟩

variable (hpath : ∀ q ∈ path, q.2 ≤ x.position)

include hpath

/-- The path goes through a tree that it enters at the parting, or by the branch after it. -/
theorem spans_along (hlabels : labels.Nodup) (hcode : p.HasCode base (e.code labels base))
    (hy : x.address = base ∨ y = x.jump base) :
    e.Spans subject anchor x.position x.position ∧ ∃ saved slots,
      p.AcceptsAlong subject anchor path ⟨base + e.codeLength, x.position, saved⟩ slots := by
  obtain ⟨branch, _, -, hstep, -⟩ := h.branch_lt
  obtain ⟨_, rest, _, hsuffix, hrun⟩ := h.along
  rcases hy with hx | rfl
  · obtain ⟨hspans, saved, slots, hend⟩ := spans_self_of_run hlabels hcode (.step hstep hrun) hx
      fun q hq ↦ hpath q (hsuffix.subset hq)
    exact ⟨hspans, saved, slots, hend.mono hsuffix⟩
  · have hsuffix' := suffix_of_cons hsuffix
    obtain ⟨hspans, saved, slots, hend⟩ := spans_self_of_run hlabels hcode hrun rfl
      fun q hq ↦ hpath q (hsuffix'.subset hq)
    exact ⟨hspans, saved, slots, hend.mono hsuffix'⟩

/-- If the path gets no further in the subject than where it is parted with, it is parted with at a
part of the tree that is reluctant there. -/
theorem exists_reluctant (hlabels : labels.Nodup) (hcode : p.HasCode base (e.code labels base))
    (hfrom : base ≤ x.address) (hto : x.address < base + e.codeLength) :
    ∃ f ∈ e.subtrees, f.Reluctant subject anchor x.position := by
  obtain ⟨primary, secondary, hsplit, hy, hz⟩ := h.code_eq
  -- Other instructions than splits do not stand where the path is parted with.
  have hother : ∀ {address i}, p.code[address]? = some i → (∀ a b, i ≠ .split a b) →
      x.address ≠ address := by
    rintro address i hi hne rfl
    exact hne _ _ (Option.some.inj (hi.symm.trans hsplit))
  induction e generalizing base with
  | empty =>
    rw [codeLength] at hto
    omega
  | any | literal | oneOf | startAnchor | endAnchor =>
    rw [codeLength] at hto
    exact absurd (by omega) (hother hcode.head (by simp))
  | cat left right ihLeft ihRight =>
    obtain ⟨hleft, hright⟩ := hcode.cat
    rw [codeLength] at hto
    rw [subtrees]
    rcases Nat.lt_or_ge x.address (base + left.codeLength) with hlt | hge
    · obtain ⟨f, hf, hreluctant⟩ := ihLeft hleft hfrom hlt
      exact ⟨f, List.mem_cons_of_mem _ (List.mem_append_left _ hf), hreluctant⟩
    · obtain ⟨f, hf, hreluctant⟩ := ihRight hright hge (by omega)
      exact ⟨f, List.mem_cons_of_mem _ (List.mem_append_right _ hf), hreluctant⟩
  | alt left right ihLeft ihRight =>
    obtain ⟨hfork, hleft, hjump, hright⟩ := hcode.alt
    have hend := hother hjump (by simp)
    rw [codeLength] at hto
    rw [subtrees]
    rcases Nat.eq_or_lt_of_le hfrom with heq | hlt
    · rw [← heq, hfork] at hsplit
      obtain ⟨rfl, rfl⟩ := Instr.split.inj (Option.some.inj hsplit)
      obtain ⟨hspans, _, _, halong⟩ := spans_along h hpath hlabels hleft (Or.inr hy)
      have hmem := (halong.jump hjump).state_mem
      exact ⟨_, List.mem_cons_self, hspans,
        spans_away h hlabels hz hright fun hbehind ↦ ⟨_, hbehind.state_mem, hmem⟩⟩
    · rcases Nat.lt_or_ge x.address (base + 1 + left.codeLength) with hlt' | hge
      · obtain ⟨f, hf, hreluctant⟩ := ihLeft hleft hlt hlt'
        exact ⟨f, List.mem_cons_of_mem _ (List.mem_append_left _ hf), hreluctant⟩
      · obtain ⟨f, hf, hreluctant⟩ := ihRight hright (by omega) (by omega)
        exact ⟨f, List.mem_cons_of_mem _ (List.mem_append_right _ hf), hreluctant⟩
  | opt inner greedy ih =>
    obtain ⟨hfork, hinner⟩ := hcode.opt
    rw [subtrees]
    rcases Nat.eq_or_lt_of_le hfrom with heq | hlt
    · obtain ⟨-, _, _, halong⟩ := spans_along h hpath hlabels hcode (Or.inl heq.symm)
      refine ⟨_, List.mem_cons_self, lazy_at_fork h hlabels (heq ▸ hfork) hinner
        (fun _ ↦ halong.state_mem) fun hend ↦ Or.inl ?_⟩
      have hmem := hend.state_mem
      rwa [Job.state, Job.resume, Nat.add_right_comm] at hmem
    · rw [codeLength] at hto
      obtain ⟨f, hf, hreluctant⟩ := ih hinner hlt (by omega)
      exact ⟨f, List.mem_cons_of_mem _ hf, hreluctant⟩
  | star inner greedy ih =>
    obtain ⟨hfork, hinner, hjump⟩ := hcode.star
    have hend := hother hjump (by simp)
    rw [subtrees]
    rcases Nat.eq_or_lt_of_le hfrom with heq | hlt
    · obtain ⟨-, _, _, halong⟩ := spans_along h hpath hlabels hcode (Or.inl heq.symm)
      exact ⟨_, List.mem_cons_self, lazy_at_fork h hlabels (heq ▸ hfork) hinner
        (fun _ ↦ halong.state_mem) fun hend ↦ Or.inr (heq ▸ (hend.jump hjump).state_mem)⟩
    · rw [codeLength] at hto
      obtain ⟨f, hf, hreluctant⟩ := ih hinner hlt (by omega)
      exact ⟨f, List.mem_cons_of_mem _ hf, hreluctant⟩
  | plus inner greedy ih =>
    obtain ⟨hinner, hfork⟩ := hcode.plus
    rw [codeLength] at hto
    rw [subtrees]
    rcases Nat.lt_or_ge x.address (base + inner.codeLength) with hlt | hge
    · obtain ⟨f, hf, hreluctant⟩ := ih hinner hfrom hlt
      exact ⟨f, List.mem_cons_of_mem _ hf, hreluctant⟩
    · obtain heq : base + inner.codeLength = x.address := by omega
      refine ⟨_, List.mem_cons_self, lazy_at_fork h hlabels (heq ▸ hfork) hinner (fun hy ↦ ?_)
        fun hend ↦ Or.inr (heq ▸ hend.state_mem)⟩
      obtain ⟨-, _, _, halong⟩ := spans_along h hpath hlabels hcode (Or.inr hy)
      rw [← heq]
      exact halong.state_mem
  | group label inner ih =>
    obtain ⟨hopen, hinner, hclose⟩ := hcode.group
    have hstart := hother hopen (by simp)
    have hend := hother hclose (by simp)
    rw [codeLength] at hto
    rw [subtrees]
    obtain ⟨f, hf, hreluctant⟩ := ih hinner (by omega) (by omega)
    exact ⟨f, List.mem_cons_of_mem _ hf, hreluctant⟩

end Parting

/-! ### The program of a loop -/

/-- Splits stand in the code of the tree only. -/
theorem address_of_split {address primary secondary : Nat}
    (h : e.compile.code[address]? = some (.split primary secondary)) :
    1 ≤ address ∧ address < 1 + e.codeLength := by
  rw [← Array.getElem?_toList, (code_compile e).1] at h
  cases address with
  | zero => simp at h
  | succ k =>
    rw [List.getElem?_cons_succ] at h
    rcases Nat.lt_or_ge k e.codeLength with hlt | hge
    · omega
    · rw [List.getElem?_append_right (by rwa [length_code]), length_code] at h
      have hmem := List.mem_of_getElem? h
      simp at hmem

variable (e greedy) in
/-- The program of a loop, address by address. -/
theorem code_compile_star :
    (e.star greedy).compile.code[0]? = some (.save 0) ∧
      (e.star greedy).compile.code[1]? = some (.branch greedy 2 (e.codeLength + 3)) ∧
      (e.star greedy).compile.HasCode 2 (e.code (e.star greedy).labels 2) ∧
      (e.star greedy).compile.code[2 + e.codeLength]? = some (.jump 1) ∧
      (e.star greedy).compile.code[e.codeLength + 3]? = some (.save 1) ∧
      (e.star greedy).compile.code[e.codeLength + 4]? = some .accept := by
  have hcode := (e.star greedy).hasCode_compile
  obtain ⟨hfork, hinner, hjump⟩ := hcode.tail.left.star
  have hend := hcode.tail.right
  rw [length_code, codeLength, show 0 + 1 + (e.codeLength + 2) = e.codeLength + 3 by omega] at hend
  rw [show 0 + 1 + e.codeLength + 2 = e.codeLength + 3 by omega] at hfork
  exact ⟨hcode.head, hfork, hinner, hjump, hend.head, hend.tail.head⟩

/-- A run through the program of a loop comes to the fork, leaves the loop there at some time, and
is accepted where it leaves. -/
theorem exists_leave {position : Nat}
    (h : (e.star greedy).compile.Run subject anchor ((e.star greedy).compile.start position) choices
      states slots) :
    ∃ stop rest, states = (0, position) :: (1, position) :: rest ∧
      [(1, stop), (e.codeLength + 3, stop), (e.codeLength + 4, stop)] <:+ (1, position) :: rest ∧
      (e.star greedy).Spans subject anchor position stop ∧
      (slots.found (e.star greedy).compile.groupCount).start = some position ∧
      (slots.found (e.star greedy).compile.groupCount).stop = some stop := by
  obtain ⟨hsave, hfork, hinner, hjump, hclose, haccept⟩ := code_compile_star e greedy
  obtain ⟨k, hk, _, rest, rfl, hbody⟩ := h.next hsave (by simp)
  obtain rfl := List.mem_singleton.mp hk
  rw [start_compile] at hbody
  obtain ⟨t, ht, rest', hsuffix, _, hleave⟩ := passes_rounds hfork (fun {states s} hround ↦ by
    obtain ⟨m, hm, hend⟩ := passes_of_acceptsAlong (nodup_eraseDups _) hinner hround
    exact ⟨m, hm, hend.jump hjump⟩) hbody.acceptsAlong
  obtain ⟨k, hk, _, rest'', rfl, hdone⟩ := hleave.next hclose (by simp)
  obtain rfl := List.mem_singleton.mp hk
  obtain ⟨rfl, rfl⟩ := hdone.eq_of_accepts haccept
  obtain ⟨rest, rfl⟩ := hbody.states_eq
  have hspans : (e.star greedy).Spans subject anchor position t.1 :=
    Passes.spans (e := e.star greedy) (s := (position, Captures.unset)) ht
  refine ⟨t.1, rest, rfl, hsuffix, hspans, ?_, ?_⟩
  · rw [(code_compile _).2, Job.save, Job.resume, Captures.found_slots]
  · rw [(code_compile _).2, Job.save, Job.resume, Captures.found_slots]

variable (e subject anchor) in
/-- The path of the preferred run through the program of a greedy loop, from the position where the
loop is first entered to the position where it is left. -/
structure Leaves (path : List (Nat × Nat)) (position stop : Nat) : Prop where
  preferred : (e.star true).compile.PreferredPath subject anchor
    ((e.star true).compile.start position) path
  enters : ∃ rest, path = (0, position) :: (1, position) :: rest
  leaves : [(1, stop), (e.codeLength + 3, stop), (e.codeLength + 4, stop)] <:+ path.tail

namespace Leaves

variable {position stop more : Nat}

theorem suffix (h : e.Leaves subject anchor path position stop) :
    [(1, stop), (e.codeLength + 3, stop), (e.codeLength + 4, stop)] <:+ path :=
  h.leaves.trans (List.tail_suffix _)

/-- The path ends where the loop is left. -/
theorem position_le (h : e.Leaves subject anchor path position stop) {q : Nat × Nat}
    (hq : q ∈ path) : q.2 ≤ stop := by
  obtain ⟨_, _, hrun, -⟩ := h.preferred
  obtain ⟨before, rfl⟩ := h.suffix
  rcases List.mem_append.mp hq with hq | hq
  · exact (List.pairwise_append.mp hrun.pairwise_position).2.2 q hq _ List.mem_cons_self
  · simp only [List.mem_cons, List.not_mem_nil, or_false] at hq
    rcases hq with rfl | rfl | rfl <;> exact Nat.le_refl _

theorem position_le_stop (h : e.Leaves subject anchor path position stop) : position ≤ stop := by
  obtain ⟨rest, rfl⟩ := h.enters
  exact h.position_le List.mem_cons_self

/-- If the loop is left where it was first entered, the path has not been in the operand. -/
theorem eq_of_position (h : e.Leaves subject anchor path position position) :
    path = [(0, position), (1, position), (e.codeLength + 3, position),
      (e.codeLength + 4, position)] := by
  obtain ⟨_, _, -, hnodup, -⟩ := h.preferred
  obtain ⟨rest, rfl⟩ := h.enters
  rcases List.suffix_cons_iff.mp h.leaves with heq | hlater
  · rw [← heq]
  · obtain ⟨hfirst, -⟩ := List.nodup_cons.mp (List.nodup_cons.mp hnodup).2
    exact absurd (hlater.subset List.mem_cons_self) hfirst

/-- A round that consumes something parts with the path inside the operand. -/
theorem exists_parting (h : e.Leaves subject anchor path position stop) (hlt : stop < more)
    (hspans : e.Spans subject anchor stop more) :
    ∃ choices other slots x y z,
      (e.star true).compile.Run subject anchor ⟨2, stop, #[]⟩ choices other slots ∧
        (e.star true).compile.Parting subject anchor path ((1, stop) :: other) x y z ∧
        x.position = stop ∧ 2 ≤ x.address ∧ x.address < 2 + e.codeLength := by
  obtain ⟨-, hfork, hinner, hjump, hclose, haccept⟩ := code_compile_star e true
  have hround : (e.star true).compile.EndsWith subject anchor [(e.codeLength + 4, more)]
      ⟨2, stop, #[]⟩ := by
    have haccepts : ∀ saved, (e.star true).compile.Accepts
        (Job.save ⟨e.codeLength + 3, more, saved⟩ 1) := fun _ ↦ haccept
    refine endsWith_of_spans hinner hspans (EndsWith.of_next (k := ⟨1, more, #[]⟩) hjump ?_ ?_)
    · exact List.mem_singleton.mpr rfl
    · refine EndsWith.of_next (k := ⟨e.codeLength + 3, more, #[]⟩) hfork ?_ ?_
      · exact Job.mem_next_branch.mpr (Or.inr rfl)
      · exact (endsWith_of_accepts (haccepts _)).of_next hclose (List.mem_singleton.mpr rfl)
  obtain ⟨choices, other, slots, hother, hends⟩ := hround
  have hstep : (e.star true).compile.Run subject anchor ⟨1, stop, #[]⟩ (0 :: choices)
      ((1, stop) :: other) slots := by
    exact .step (.primary hfork) hother
  obtain ⟨x, y, z, hpart⟩ := h.preferred.exists_parting hstep
    ⟨_, List.mem_cons_self, h.suffix.subset List.mem_cons_self⟩ (hends.trans (List.suffix_cons _ _))
    fun hin ↦ absurd (h.position_le hin) (Nat.not_le_of_lt hlt)
  have hx : x.position = stop :=
    Nat.le_antisymm (h.position_le hpart.mem_path) (hstep.position_le hpart.mem_other)
  refine ⟨choices, other, slots, x, y, z, hother, hpart, hx, ?_⟩
  obtain ⟨primary, secondary, hsplit, -, -⟩ := hpart.code_eq
  obtain ⟨hfrom, hto⟩ := address_of_split hsplit
  rw [codeLength] at hto
  -- At the fork the path leaves the loop, and the round prefers to enter it.
  have hfork_ne : x.address ≠ 1 := by
    intro heq
    have hfork' : (e.star true).compile.code[x.address]? =
        some (.branch true 2 (e.codeLength + 3)) := by rw [heq, hfork]
    have hleave : (e.codeLength + 3, x.position) ∈ path := by
      rw [hx]
      exact h.suffix.subset (by simp)
    obtain ⟨henter, -⟩ := lazy_at_fork hpart (nodup_eraseDups _) hfork' hinner (fun _ ↦ hleave)
      fun hend ↦ Or.inr (heq ▸ (hend.jump hjump).state_mem)
    exact absurd henter (by decide)
  have hjump_ne : x.address ≠ 2 + e.codeLength := by
    intro heq
    rw [heq, hjump] at hsplit
    simp at hsplit
  omega

/-- Where a greedy loop is left although its operand could consume more, the operand matches nothing
there, only rounds before have consumed something, and some part of the operand is reluctant. -/
theorem exists_reluctant (h : e.Leaves subject anchor path position stop) (hlt : stop < more)
    (hspans : e.Spans subject anchor stop more) :
    position < stop ∧ e.Spans subject anchor stop stop ∧
      ∃ f ∈ e.subtrees, f.Reluctant subject anchor stop := by
  obtain ⟨choices, other, slots, x, y, z, hother, hpart, rfl, hfrom, hto⟩ :=
    h.exists_parting hlt hspans
  have hlabels := nodup_eraseDups (e.star true).openings
  obtain ⟨-, -, hinner, -⟩ := code_compile_star e true
  refine ⟨?_, ?_, Regex.exists_reluctant hpart (fun _ ↦ h.position_le) hlabels hinner hfrom hto⟩
  · have hle := h.position_le_stop
    refine Nat.lt_of_le_of_ne hle ?_
    rintro rfl
    have hmem := h.eq_of_position ▸ hpart.mem_path
    simp only [List.mem_cons, List.not_mem_nil, or_false, Job.state, Prod.mk.injEq] at hmem
    omega
  · -- The round up to the parting, followed by the rest of the path, stays where it is.
    have hx : x.state ∈ other := by
      rcases List.mem_cons.mp hpart.mem_other with heq | hx
      · have haddress : x.address = 1 := congrArg Prod.fst heq
        omega
      · exact hx
    obtain ⟨_, _, k, before, states, -, rfl, hk, hrest, hexchange⟩ := hother.exists_rest hx
    obtain ⟨_, _, _, hsuffix, hrun⟩ := hpart.run
    obtain ⟨_, hrun'⟩ := hrun.exists_of_state_eq hk.symm
    refine (spans_self_of_run hlabels hinner (hexchange hrun') rfl fun q hq ↦ ?_).1
    rcases List.mem_append.mp hq with hq | hq
    · have hordered := (List.pairwise_append.mp hother.pairwise_position).2.2 q hq _ hrest.head_mem
      rwa [hk] at hordered
    · exact h.position_le (hsuffix.subset hq)

end Leaves

/-- A greedy loop is always left somewhere, and only at a position where its operand cannot consume
anything, unless the operand matches nothing there, rounds before have consumed something, and some
part of the operand is reluctant there. -/
theorem searchAt_star_greedy (e : Regex) (anchor : Int) {position : Nat}
    (h : position ≤ subject.size) :
    ∃ found stop, (e.star true).compile.searchAt subject position ⟨some anchor, none⟩ =
        .ok (some found) ∧
      found.start = some position ∧ found.stop = some stop ∧
      (e.star true).Spans subject anchor position stop ∧
      ((∀ more, e.Spans subject anchor stop more → more ≤ stop) ∨
        position < stop ∧ e.Spans subject anchor stop stop ∧
          ∃ f ∈ e.subtrees, f.Reluctant subject anchor stop) := by
  have hp := (e.star true).compile_wellFormed
  obtain ⟨r, houtcome⟩ := Program.exists_outcome hp anchor h
  have hr : r ≠ none := (Program.outcome_ne_none_iff hp h houtcome).mpr
    ((e.star true).live_start_compile_iff.mpr ⟨position, Relation.ReflTransGen.refl⟩)
  obtain ⟨slots, rfl⟩ := Option.ne_none_iff_exists'.mp hr
  obtain ⟨choices, path, hrun, hnodup, hleast⟩ := Program.outcome_some_iff.mp houtcome
  obtain ⟨stop, rest, rfl, hleave, hspans, hstart, hstop⟩ := exists_leave hrun
  refine ⟨_, stop, Program.searchAt_of_outcome hp h houtcome, hstart, hstop, hspans, ?_⟩
  have hleaves : e.Leaves subject anchor _ position stop :=
    ⟨⟨choices, slots, hrun, hnodup, hleast⟩, ⟨rest, rfl⟩, hleave⟩
  by_cases hmore : ∃ more, stop < more ∧ e.Spans subject anchor stop more
  · obtain ⟨more, hlt, hmore⟩ := hmore
    exact Or.inr (hleaves.exists_reluctant hlt hmore)
  · refine Or.inl fun more hspans ↦ ?_
    by_contra hgt
    exact hmore ⟨more, Nat.lt_of_not_le hgt, hspans⟩

/-- A group that takes a letter if it can, and a second one only if it must. -/
def hesitantPair : Regex :=
  .group 0 (.cat (.opt (.literal (.unit 'a')) true) (.opt (.literal (.unit 'b')) false))

/-- The second round comes back to the lazy option at the end of the first one, which is still being
explored, and is cut short there. -/
theorem searchAt_hesitantPair :
    (hesitantPair.star true).compile.searchAt #['a', 'b'] (0 : Nat) ⟨some 0, none⟩ =
      .ok (some ⟨some 0, some 1, #[some ⟨0, 1⟩, some ⟨0, 1⟩]⟩) := by
  rw [compile_eq]
  exact Program.searchAt_of_explore_slots (some #[some 0, some 1, some 0, some 1])
    (Nat.zero_le _) (by cbv)

theorem hesitantPair_spans : hesitantPair.Spans #['a', 'b'] 0 1 2 :=
  ⟨1, Or.inl rfl, Or.inr ⟨by decide, rfl⟩⟩

/-- A greedy loop that is left although another round would consume a letter. -/
theorem star_hesitantPair_stops_short :
    ∃ found stop, (hesitantPair.star true).compile.searchAt #['a', 'b'] (0 : Nat) ⟨some 0, none⟩ =
        .ok (some found) ∧
      found.stop = some stop ∧ ∃ more, stop < more ∧ hesitantPair.Spans #['a', 'b'] 0 stop more :=
  ⟨_, 1, searchAt_hesitantPair, rfl, 2, by decide, hesitantPair_spans⟩

theorem searchAt_star_hesitantPair :
    0 ≤ (#['a', 'b'] : Text).size ∧
      (hesitantPair.star true).compile.searchAt #['a', 'b'] (0 : Nat) ⟨some 0, none⟩ =
        .ok (some ⟨some 0, some 1, #[some ⟨0, 1⟩, some ⟨0, 1⟩]⟩) ∧
      hesitantPair.Spans #['a', 'b'] 0 1 1 ∧
        ∃ f ∈ hesitantPair.subtrees, f.Reluctant #['a', 'b'] 0 1 := by
  have hinside : 0 ≤ (#['a', 'b'] : Text).size := by decide
  obtain ⟨found, stop, hsearch, -, hstop, -, hleft⟩ := searchAt_star_greedy hesitantPair 0 hinside
  rw [searchAt_hesitantPair] at hsearch
  obtain rfl := Option.some.inj (Except.ok.inj hsearch)
  obtain rfl : 1 = stop := Option.some.inj hstop
  rcases hleft with hnothing | ⟨-, hempty, hreluctant⟩
  · exact absurd (hnothing 2 hesitantPair_spans) (by decide)
  · exact ⟨hinside, searchAt_hesitantPair, hempty, hreluctant⟩

end Regex

end ExtendedRegex
